import AccessMatrix.Error
import AccessMatrix.Graph.Basic
import AccessMatrix.Value.Item

/-!
# References to entities

An entity is referred to by its name or by the entity itself. An entity of another graph is never
taken for the entity of the same name in this one.
-/

namespace AccessMatrix

/-- A reference to an entity: one of this graph, one of another graph, or what a value names. -/
inductive Ref where
  | own (name : String)
  | foreign (name : String)
  | value (v : Value)
  deriving Repr

/-- Several references: given one by one, or as a value to be gone through. -/
inductive Refs where
  | each (refs : List Ref)
  | among (v : Value)
  deriving Repr

/-- The references one by one. -/
def Refs.toList : Refs → Except Error (List Ref)
  | .each refs => .ok refs
  | .among v => Error.ofMisuse (v.iterate.map fun items => items.map Ref.value)

namespace Ref

/-- What a reference is called in messages. -/
def label : Ref → Value
  | own name | foreign name => .text name
  | value v => v

end Ref

namespace Graph

/-- The registered entity that a value names. -/
def named? (g : Graph) (v : Value) : Option Entity := v.asText?.bind g.find?

/-- The registered entity that a value names; a value that cannot be a key is refused. -/
def get (g : Graph) (v : Value) : Except Error (Option Entity) := do
  Error.ofMisuse v.checkKey
  return g.named? v

/-- The registered entity that a reference means, if it means one. -/
def refersTo (g : Graph) : Ref → Option Entity
  | .own name => g.find? name
  | .foreign _ => none
  | .value v => g.named? v

/-- The registered entity that a reference means. -/
def require (g : Graph) (ref : Ref) : Except Error Entity := do
  if let .value v := ref then Error.ofMisuse v.checkKey
  match g.refersTo ref with
  | some e => return e
  | none => throw (.graph (.unknownEntity ref.label))

/-- Whether a reference means a registered entity. -/
def includes (g : Graph) (ref : Ref) : Except Error Bool := do
  if let .value v := ref then Error.ofMisuse v.checkKey
  return (g.refersTo ref).isSome

end Graph

end AccessMatrix
