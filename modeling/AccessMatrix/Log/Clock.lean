import AccessMatrix.Log.PlaceLayout

/-!
# Times of day and date

An instant is counted in seconds from the start of 1970 and shown in universal time, the calendar
being the Gregorian one throughout. Years are written without padding.
-/

namespace AccessMatrix.Log.Clock

/-- The days of a span of four hundred years. -/
def eraDays : Int := 146097

/-- A date by year, month and day. -/
structure Date where
  year : Int
  month : Nat
  day : Nat
  deriving DecidableEq, Repr

/-- The date that lies a number of days after the start of 1970. Years are counted from March, so
that a leap day ends one. -/
def Date.ofDays (days : Int) : Date :=
  let shifted := days + 719468
  let era := Int.fdiv shifted eraDays
  let dayOfEra := (Int.fmod shifted eraDays).toNat
  let yearOfEra := (dayOfEra - dayOfEra / 1460 + dayOfEra / 36524 - dayOfEra / 146096) / 365
  let dayOfYear := dayOfEra - (365 * yearOfEra + yearOfEra / 4 - yearOfEra / 100)
  let fromMarch := (5 * dayOfYear + 2) / 153
  let month := if fromMarch < 10 then fromMarch + 3 else fromMarch - 9
  { year := yearOfEra + era * 400 + (if month ≤ 2 then 1 else 0)
    month
    day := dayOfYear - (153 * fromMarch + 2) / 5 + 1 }

/-- A number with zeros before it up to a width. -/
def padded (width n : Nat) : String :=
  let digits := Nat.toDigits 10 n
  String.ofList (List.replicate (width - digits.length) '0' ++ digits)

/-- The last year that a date can have. -/
def lastYear : Int := Int.pow 2 31 + 1899

/-- The first year that a date can have. -/
def firstYear : Int := -Int.pow 2 31 + 1900

/-- The last year that can be written. -/
def lastWritten : Int := Int.pow 2 31 - 1

/-- An instant in universal time, to the second. -/
def timestamp (seconds : Int) : Except Misuse String :=
  let date := Date.ofDays (Int.fdiv seconds 86400)
  let second := (Int.fmod seconds 86400).toNat
  if date.year < firstYear ∨ lastYear < date.year then .error (.number .dateTooLarge)
  else if lastWritten < date.year then .error (.number .yearTooLarge)
  else
    .ok (s!"{date.year}-{padded 2 date.month}-{padded 2 date.day} " ++
      s!"{padded 2 (second / 3600)}:{padded 2 (second / 60 % 60)}:{padded 2 (second % 60)}")

/-- A whole number with zeros after its sign up to a width. -/
def signedPadded (width : Nat) (n : Int) : String :=
  if n < 0 then "-" ++ padded (width - 1) n.natAbs else padded width n.toNat

/-- The whole seconds of an instant given as a number. -/
def secondsOf (value : Value) : Except Misuse Int := do
  let seconds ←
    match value with
    | .float x =>
      match x.floor? with
      | some n => pure n
      | none => throw (.number (if x.isUndefined then .undefinedInstant else .instantTooLarge))
    | value =>
      match value.asInt? with
      | some n => pure n
      | none => throw (.notInteger value.typeName)
  if seconds < -Int.pow 2 63 ∨ Int.pow 2 63 ≤ seconds then throw (.number .instantTooLarge)
  return seconds

/-- How the present is shown, which no value tells. -/
def present : String := "now"

/-- The date and time of an instant given as a number of seconds, or of the present where nothing is
given. -/
def dateAndTime : Value → Except Misuse String
  | .null => .ok present
  | seconds => do timestamp (← secondsOf seconds)

/-- The thousandths of a second given as a number. -/
def thousandths (value : Value) : Except Misuse String := do
  return signedPadded 3 (← PlaceLayout.wholeNumber 'd' value)

end AccessMatrix.Log.Clock
