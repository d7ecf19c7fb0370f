/-!
# Misuse of templates

What keeps a template and its arguments from making a text.
-/

namespace AccessMatrix

/-- What keeps a template and its arguments from making a text. -/
inductive TemplateFault where
  | missingArgument
  | surplusArguments
  | unkeyed
  | openKey
  | unfinished
  | unknownConversion (conversion : Char) (position : Nat)
  | countNotInteger
  | wideCount (target : String)
  | longCount (name : String)
  | longPrecision
  | notNumber (conversion : Char) (kind : String)
  | notInteger (conversion : Char) (kind : String)
  | notReal (kind : String)
  | realTooLarge
  | notCharacter
  | noSuchCharacter
  | endlessText
  deriving Repr

namespace TemplateFault

/-- The name of the kind of such a fault. -/
def kind : TemplateFault → String
  | openKey | unfinished | unknownConversion _ _ | longCount _ => "ValueError"
  | wideCount _ | longPrecision | realTooLarge | noSuchCharacter => "OverflowError"
  | endlessText => "MemoryError"
  | _ => "TypeError"

/-- A character as messages about templates show it. -/
def shown (c : Char) : Char := if 31 ≤ c.toNat && c.toNat < 127 then c else '?'

/-- The message of a template that is not filled. -/
def message : TemplateFault → String
  | missingArgument => "not enough arguments for format string"
  | surplusArguments => "not all arguments converted during string formatting"
  | unkeyed => "format requires a mapping"
  | openKey => "incomplete format key"
  | unfinished => "incomplete format"
  | unknownConversion conversion position =>
    let point := String.ofList (Nat.toDigits 16 conversion.toNat)
    s!"unsupported format character '{shown conversion}' (0x{point}) at index {position}"
  | countNotInteger => "* wants int"
  | wideCount target => s!"Python int too large to convert to C {target}"
  | longCount name => s!"{name} too big"
  | longPrecision => "precision too large"
  | notNumber conversion kind => s!"%{conversion} format: a real number is required, not {kind}"
  | notInteger conversion kind => s!"%{conversion} format: an integer is required, not {kind}"
  | notReal kind => s!"must be real number, not {kind}"
  | realTooLarge => "int too large to convert to float"
  | notCharacter => "%c requires int or char"
  | noSuchCharacter => "%c arg not in range(0x110000)"
  | endlessText => ""

end TemplateFault

end AccessMatrix
