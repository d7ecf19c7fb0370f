/-!
# Places in message templates

A place in a template stands for an argument. After its percent sign it may name a key, then come
flags, a width, a precision after a point, and the letter of a size; the letter of its conversion ends
it.
-/

namespace AccessMatrix.Log

/-- The argument that a place asks for: the next one, one under a key, or one under a key that is
never closed. -/
inductive PlaceKey where
  | next
  | named (key : String)
  | unclosed
  deriving DecidableEq, Repr

/-- A count in a place: none, a number, or the next argument. -/
inductive PlaceCount where
  | absent
  | stated (n : Nat)
  | argument
  deriving DecidableEq, Repr

/-- A place in a template. Its conversion is a letter with its position in the template, and is
missing where the template ends first. -/
structure Place where
  key : PlaceKey := .next
  flags : List Char := []
  width : PlaceCount := .absent
  precision : PlaceCount := .absent
  conversion? : Option (Char × Nat) := none
  deriving DecidableEq, Repr

namespace Place

/-- The characters up to the parenthesis that closes a key, and those after it. -/
def closeKey : Nat → List Char → Option (List Char × List Char)
  | _, [] => none
  | 0, ')' :: rest => some ([], rest)
  | depth, c :: rest =>
    let inner := if c = '(' then depth + 1 else if c = ')' then depth - 1 else depth
    (closeKey inner rest).map fun (key, rest) => (c :: key, rest)

/-- Read a key in parentheses. -/
def readKey : List Char → PlaceKey × List Char
  | '(' :: rest =>
    match closeKey 0 rest with
    | some (key, rest) => (.named (String.ofList key), rest)
    | none => (.unclosed, [])
  | chars => (.next, chars)

/-- Whether a character is a flag. -/
def isFlag (c : Char) : Bool := ['-', '+', ' ', '#', '0'].contains c

/-- The number that decimal digits spell. -/
def numberOf (digits : List Char) : Nat := digits.foldl (fun n c => n * 10 + (c.toNat - 48)) 0

/-- Read a count: a star, or digits. -/
def readCount : List Char → PlaceCount × List Char
  | [] => (.absent, [])
  | '*' :: rest => (.argument, rest)
  | c :: rest =>
    if c.isDigit then
      (.stated (numberOf (c :: rest.takeWhile Char.isDigit)), rest.dropWhile Char.isDigit)
    else (.absent, c :: rest)

/-- Read a precision, which is a count after a point, and zero where nothing follows the point. -/
def readPrecision : List Char → PlaceCount × List Char
  | '.' :: rest =>
    match readCount rest with
    | (.absent, rest) => (.stated 0, rest)
    | found => found
  | chars => (.absent, chars)

/-- Pass over the letter of a size, which says nothing. -/
def skipSize : List Char → List Char
  | [] => []
  | c :: rest => if ['h', 'l', 'L'].contains c then rest else c :: rest

/-- Read a place that starts after its percent sign, in a template of some size. -/
def read (size : Nat) (chars : List Char) : Place × List Char :=
  let (key, rest) := readKey chars
  let flags := rest.takeWhile isFlag
  let (width, rest) := readCount (rest.dropWhile isFlag)
  let (precision, rest) := readPrecision rest
  match skipSize rest with
  | [] => ({ key, flags, width, precision }, [])
  | c :: rest =>
    ({ key, flags, width, precision, conversion? := some (c, size - (rest.length + 1)) }, rest)

theorem length_closeKey_le {depth : Nat} {chars key rest : List Char}
    (h : closeKey depth chars = some (key, rest)) : rest.length ≤ chars.length := by
  induction chars generalizing depth key rest with
  | nil => simp [closeKey] at h
  | cons c chars ih =>
    unfold closeKey at h
    split at h
    · simp_all
    · simp_all
    · rename_i heq
      simp only [List.cons.injEq] at heq
      obtain ⟨hc, hchars⟩ := heq
      obtain ⟨⟨found, left⟩, hfound, hpair⟩ := Option.map_eq_some_iff.mp h
      simp only [Prod.mk.injEq] at hpair
      rw [← hchars] at hfound
      have hle := ih hfound
      rw [hpair.2] at hle
      exact Nat.le_succ_of_le hle

theorem length_readKey_le (chars : List Char) : (readKey chars).2.length ≤ chars.length := by
  unfold readKey
  split
  · split
    · rename_i h
      exact Nat.le_succ_of_le (length_closeKey_le h)
    · simp
  · simp

theorem length_dropWhile_le (p : Char → Bool) (chars : List Char) :
    (chars.dropWhile p).length ≤ chars.length := (List.dropWhile_sublist p).length_le

theorem length_readCount_le (chars : List Char) : (readCount chars).2.length ≤ chars.length := by
  unfold readCount
  split
  · simp
  · simp
  · split
    · exact Nat.le_succ_of_le (length_dropWhile_le _ _)
    · simp

theorem length_readPrecision_le (chars : List Char) :
    (readPrecision chars).2.length ≤ chars.length := by
  unfold readPrecision
  split
  · rename_i rest
    have hle := length_readCount_le rest
    split
    · rename_i h
      rw [h] at hle
      exact Nat.le_succ_of_le hle
    · exact Nat.le_succ_of_le hle
  · simp

theorem length_skipSize_le (chars : List Char) : (skipSize chars).length ≤ chars.length := by
  unfold skipSize
  split
  · simp
  · split <;> simp

/-- A place takes nothing but its own characters. -/
theorem length_read_le (size : Nat) (chars : List Char) :
    (read size chars).2.length ≤ chars.length := by
  have hkey := length_readKey_le chars
  have hflags := length_dropWhile_le isFlag (readKey chars).2
  have hwidth := length_readCount_le ((readKey chars).2.dropWhile isFlag)
  have hprecision := length_readPrecision_le (readCount ((readKey chars).2.dropWhile isFlag)).2
  have hsize := length_skipSize_le
    (readPrecision (readCount ((readKey chars).2.dropWhile isFlag)).2).2
  unfold read
  simp only
  split
  · simp
  · rename_i h
    rw [h] at hsize
    simp only [List.length_cons] at hsize
    simp only
    omega

end Place

end AccessMatrix.Log
