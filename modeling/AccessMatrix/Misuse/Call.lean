/-!
# Misuse of calls

What the arguments of a call do wrong. Arguments are given by position or by name, and what is given
by name comes from a mapping.
-/

namespace AccessMatrix

/-- What the arguments of a call do wrong. -/
inductive CallFault where
  | notCallable (kind : String)
  | nameNotText
  | unexpected (called argument : String)
  | repeated (called argument : String)
  | repeatedKeyword (called argument : String)
  | missing (called : String) (arguments : List String)
  | surplus (called : String) (allowed given : Nat)
  | surplusBeyond (called : String) (least most given : Nat)
  | noNames (called : String)
  | noArguments (called : String) (given : Nat)
  | exactlyOne (called : String) (given : Nat)
  | count (lead : String) (expected given : Nat)
  | atMost (called : String) (allowed given : Nat)
  | notEnough (called : String)
  | notType (called kind : String)
  | layoutNotText (kind : String)
  | unknownLayout (kind : String)
  | notMapping (called kind : String)
  | notSequence (kind : String)
  | notItems (called kind : String)
  deriving Repr

namespace CallFault

/-- A number of arguments. -/
def counted (count : Nat) : String :=
  let noun := if count = 1 then "argument" else "arguments"
  s!"{count} {noun}"

/-- Names in quotes with a word before the last one, and commas between more than two. -/
def enumerated : List String → String
  | [] => ""
  | [name] => s!"'{name}'"
  | [name, last] => s!"'{name}' and '{last}'"
  | [name, next, last] => s!"'{name}', '{next}', and '{last}'"
  | name :: rest => s!"'{name}', " ++ enumerated rest

/-- The message of a call that does not fit. -/
def message : CallFault → String
  | notCallable kind => s!"'{kind}' object is not callable"
  | nameNotText => "keywords must be strings"
  | unexpected called argument => s!"{called}() got an unexpected keyword argument '{argument}'"
  | repeated called argument => s!"{called}() got multiple values for argument '{argument}'"
  | repeatedKeyword called argument =>
    s!"{called} got multiple values for keyword argument '{argument}'"
  | missing called arguments =>
    let noun := if arguments.length = 1 then "argument" else "arguments"
    s!"{called}() missing {arguments.length} required positional {noun}: {enumerated arguments}"
  | surplus called allowed given =>
    let noun := if allowed = 1 then "argument" else "arguments"
    s!"{called}() takes {allowed} positional {noun} but {given} were given"
  | surplusBeyond called least most given =>
    s!"{called}() takes from {least} to {most} positional arguments but {given} were given"
  | noNames called => s!"{called}() takes no keyword arguments"
  | noArguments called given => s!"{called}() takes no arguments ({given} given)"
  | exactlyOne called given => s!"{called}() takes exactly one argument ({given} given)"
  | count lead expected given => s!"{lead}expected {counted expected}, got {given}"
  | atMost called allowed given => s!"{called} expected at most {counted allowed}, got {given}"
  | notEnough called => s!"{called}(): not enough arguments"
  | notType called kind => s!"{called}(X): X is not a type object ({kind})"
  | layoutNotText kind => s!"__format__() argument must be str, not {kind}"
  | unknownLayout kind => s!"unsupported format string passed to {kind}.__format__"
  | notMapping called kind => s!"{called} argument after ** must be a mapping, not {kind}"
  | notSequence kind => s!"Value after * must be an iterable, not {kind}"
  | notItems called kind => s!"{called}() argument after * must be an iterable, not {kind}"

/-- What a count of arguments by position does wrong that does not fit the parameters, before which
the call has some receivers. -/
def ofCount (called : String) (receivers : Nat) (required optional : List String) (given : Nat) :
    CallFault :=
  let least := receivers + required.length
  if given < required.length then missing called (required.drop given)
  else if optional.isEmpty then surplus called least (receivers + given)
  else surplusBeyond called least (least + optional.length) (receivers + given)

end CallFault

end AccessMatrix
