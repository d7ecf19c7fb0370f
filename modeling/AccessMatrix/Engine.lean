import AccessMatrix.Config
import AccessMatrix.Log.Record
import AccessMatrix.Policy.Compiler

/-!
# Engines

An engine owns one graph, one compiler, the adapters of its evaluator, and its settings.
-/

namespace AccessMatrix

/-- How raw records of an application become memberships or subjects: as they are, never, or by
reading the fields of a record. -/
inductive Adapter where
  | identity
  | failing (text : String)
  | unimplemented
  | fields
  deriving DecidableEq, Repr

/-- One permission engine, with the name that it goes by. -/
structure Engine where
  config : Config := {}
  name : Value := .text config.name
  graph : Graph := {}
  compiler : Policy.Compiler := {}
  membershipAdapter? : Option Adapter := none
  subjectAdapter? : Option Adapter := none
  deriving Repr

namespace Engine

/-- An engine with settings of its own, with a name only, or with both. A name that does not count as
given is passed over. A name alone is read as settings are; beside settings it is taken as it is, in
place of the name in them. -/
def create (name : Value) (config? : Option Config) : Except (List Validation.Fault) Engine :=
  match config? with
  | some config => .ok { config, name := if name.isTruthy then name else .text config.name }
  | none =>
    if name.isTruthy then
      (Config.ofEntries [(.text "name", name)]).map fun config => { config }
    else .ok {}

/-- An engine as it is shown. -/
def display (e : Engine) : String :=
  let name := e.name.literal
  s!"PermissionManager(name={name}, entities={e.graph.size})"

end Engine

end AccessMatrix
