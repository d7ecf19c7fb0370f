import AccessMatrix.Log.Place
import AccessMatrix.Log.PlaceLayout

/-!
# Message templates

A template is a text with places for arguments. Each begins with a percent sign, and a doubled one
stands for itself. The places are filled from left to right: each with the next argument, or with
what a mapping of arguments holds under a key.
-/

namespace AccessMatrix.Log.Template

/-- A piece of a template: a character that stands for itself, or a place. -/
inductive Piece where
  | character (c : Char)
  | place (p : Place)
  deriving DecidableEq, Repr

/-- The pieces of what is left of a template of some size. -/
def pieces (size : Nat) : List Char → List Piece
  | [] => []
  | '%' :: '%' :: rest => .character '%' :: pieces size rest
  | '%' :: rest =>
    have := Place.length_read_le size rest
    .place (Place.read size rest).1 :: pieces size (Place.read size rest).2
  | c :: rest => .character c :: pieces size rest
termination_by chars => chars.length

/-- The arguments that are left: those to come, and the collection in which keys are looked up. -/
structure Arguments where
  next : List Value
  keyed? : Option Value := none
  deriving Repr

namespace Arguments

/-- A tuple gives its items, and any other value is one argument. Keys are looked up in a list or a
mapping. -/
def ofValue : Value → Arguments
  | .tuple items => ⟨items, none⟩
  | value@(.list _) | value@(.mapping _) => ⟨[value], some value⟩
  | value => ⟨[value], none⟩

/-- The next argument. -/
def take (args : Arguments) : Except Misuse (Value × Arguments) :=
  match args.next with
  | [] => .error (.template .missingArgument)
  | value :: rest => .ok (value, { args with next := rest })

/-- The arguments of a place: a key makes what it holds the only one to come. -/
def under (args : Arguments) : PlaceKey → Except Misuse Arguments
  | .next => .ok args
  | key =>
    match args.keyed?, key with
    | none, _ => .error (.template .unkeyed)
    | some held, .named name =>
      (held.item (.text name)).map fun value => { args with next := [value] }
    | some _, _ => .error (.template .openKey)

/-- A count, which is read off the template or taken from the arguments; it has a name, and a target
that an argument has to fit in. -/
def count (args : Arguments) (name target : String) (bits : Nat) :
    PlaceCount → Except Misuse (Option Int × Arguments)
  | .absent => .ok (none, args)
  | .stated n =>
    if n < Nat.pow 2 (bits - 1) then .ok (some n, args) else .error (.template (.longCount name))
  | .argument => do
    let (value, args) ← args.take
    match value.position? with
    | none => throw (.template .countNotInteger)
    | some n =>
      if n < -Int.pow 2 (bits - 1) ∨ Int.pow 2 (bits - 1) ≤ n then throw (.template (.wideCount target))
      return (some n, args)

/-- Refuse arguments that no place took, unless keys are looked up in them. -/
def checkUsed (args : Arguments) : Except Misuse Unit :=
  if args.next.isEmpty || args.keyed?.isSome then .ok () else .error (.template .surplusArguments)

end Arguments

/-- Fill a place. A negative width asks for the left, and a negative precision counts as zero. -/
def fillPlace (place : Place) (args : Arguments) : Except Misuse (List Char × Arguments) := do
  let args ← args.under place.key
  let (width?, args) ← args.count "width" "ssize_t" 64 place.width
  let (precision?, args) ← args.count "precision" "int" 32 place.precision
  let width := width?.getD 0
  let layout := PlaceLayout.ofFlags place.flags width.natAbs (precision?.map Int.toNat)
  let layout := if width < 0 then { layout with toLeft := true } else layout
  match place.conversion? with
  | none => throw (.template .unfinished)
  | some (conversion, position) => do
    let (value, args) ← args.take
    let written ← layout.write conversion position value
    if PlaceLayout.longestText < layout.width then throw (.template .endlessText)
    return (layout.place written, args)

/-- Fill the pieces of a template. The arguments that no place took are returned with the text. -/
def fillPieces : List Piece → Arguments → Except Misuse (List Char × Arguments)
  | [], args => .ok ([], args)
  | .character c :: rest, args =>
    (fillPieces rest args).map fun (text, args) => (c :: text, args)
  | .place place :: rest, args => do
    let (shown, args) ← fillPlace place args
    let (text, args) ← fillPieces rest args
    return (shown ++ text, args)

/-- Fill a template. -/
def fill (template : String) (given : Value) : Except Misuse String := do
  let chars := template.toList
  let (text, args) ← fillPieces (pieces chars.length chars) (.ofValue given)
  args.checkUsed
  return String.ofList text

end AccessMatrix.Log.Template
