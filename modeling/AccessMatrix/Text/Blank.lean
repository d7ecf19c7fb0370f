/-!
# Blank characters

The characters that separate words: the controls that end a line or a field, and the spaces of
every width. A text is split into its words at runs of them.
-/

namespace AccessMatrix.Text

/-- The code points that count as blank, in rising order. -/
def blankPoints : List Nat :=
  [0x09, 0x0a, 0x0b, 0x0c, 0x0d, 0x1c, 0x1d, 0x1e, 0x1f, 0x20, 0x85, 0xa0, 0x1680, 0x2000, 0x2001,
    0x2002, 0x2003, 0x2004, 0x2005, 0x2006, 0x2007, 0x2008, 0x2009, 0x200a, 0x2028, 0x2029, 0x202f,
    0x205f, 0x3000]

/-- Whether a character separates words. -/
def isBlank (c : Char) : Bool := blankPoints.contains c.toNat

/-- Whether a text holds blanks only. -/
def isAllBlank (s : String) : Bool := s.toList.all isBlank

/-- The words of a text: its longest runs without a blank. -/
def words : List Char → List (List Char)
  | [] => []
  | c :: rest =>
    if isBlank c then words rest
    else
      match rest with
      | [] => [[c]]
      | next :: _ =>
        if isBlank next then [c] :: words rest
        else
          match words rest with
          | [] => [[c]]
          | word :: others => (c :: word) :: others

/-- No word is empty. -/
theorem ne_nil_of_mem_words {s word : List Char} (h : word ∈ words s) : word ≠ [] := by
  fun_induction words s with
  | case1 => simp at h
  | case2 c rest hb ih => exact ih h
  | case3 c hb => simp_all
  | case4 c hb next rest hn ih => grind
  | case5 c hb next rest hn hw ih => simp_all
  | case6 c hb next rest hn first others hw ih => grind

/-- No word holds a blank. -/
theorem isBlank_of_mem_words {s word : List Char} (h : word ∈ words s) {c : Char} (hc : c ∈ word) :
    isBlank c = false := by
  fun_induction words s generalizing word with
  | case1 => simp at h
  | case2 d rest hb ih => exact ih h hc
  | case3 d hb => simp_all
  | case4 d hb next rest hn ih => grind
  | case5 d hb next rest hn hw ih => simp_all
  | case6 d hb next rest hn first others hw ih => grind

/-- The words of a text with one space between neighbours. -/
def collapse (s : String) : String :=
  String.ofList ((words s.toList).intersperse [' ']).flatten

end AccessMatrix.Text
