/-!
# Log levels

The five levels by which log records are graded, from the least to the most severe.
-/

namespace AccessMatrix.Log

/-- The grade of a log record. -/
inductive Level where
  | debug | info | warning | error | critical
  deriving DecidableEq, Repr

namespace Level

/-- Every level, the least severe first. -/
def all : List Level := [debug, info, warning, error, critical]

/-- The number of a level; a record is kept when its number is not below the threshold's. -/
def number : Level → Nat
  | debug => 10
  | info => 20
  | warning => 30
  | error => 40
  | critical => 50

/-- The name of a level. -/
def name : Level → String
  | debug => "DEBUG"
  | info => "INFO"
  | warning => "WARNING"
  | error => "ERROR"
  | critical => "CRITICAL"

/-- Upper case, as far as the letters of the names need it: besides the small letters of the
alphabet, the dotless `ı` has the capital `I`. -/
def upper (c : Char) : Char := if c = '\u0131' then 'I' else c.toUpper

/-- The level that a text names in letters of either case. -/
def ofName? (s : String) : Option Level :=
  all.find? fun level => level.name.toList = s.toList.map upper

/-- The names of numbers: those of the levels, and one for no level at all. -/
def nameOfNumber? (n : Int) : Option String :=
  if n = 0 then some "NOTSET"
  else (all.find? fun level => (level.number : Int) = n).map name

/-- The numbers of names, some of which are other names of a level. -/
def numberOfName? (s : String) : Option Nat :=
  if s = "NOTSET" then some 0
  else if s = "WARN" then some warning.number
  else if s = "FATAL" then some critical.number
  else (all.find? fun level => level.name = s).map number

end Level

end AccessMatrix.Log
