import AccessMatrix.Session.Command

/-!
# Sessions

A session is one engine at work with what was put aside on the way. A step begins by looking up the
entities that it mentions.
-/

namespace AccessMatrix

/-- One engine at work, with the number of subjects that callbacks were called for, the views that they
altered, the setters and snapshots that were put aside, the entities of another graph that were
mentioned, and the log records made so far. -/
structure Session where
  engine : Engine := {}
  visits : Nat := 0
  views : Policy.Views := []
  kept : List (Value × Policy.Setter) := []
  held : List (Value × Policy.Snapshot) := []
  elsewhere : Graph := {}
  records : List Log.Record := []

namespace Session

open Policy (Setter Compiler)

/-- The session with another graph. -/
def withGraph (s : Session) (g : Graph) : Session :=
  { s with engine := { s.engine with graph := g } }

/-- The session with another compiler. -/
def withCompiler (s : Session) (c : Compiler) : Session :=
  { s with engine := { s.engine with compiler := c } }

/-- The session with more log records. -/
def log (s : Session) (records : List Log.Record) : Session :=
  { s with records := s.records ++ records }

/-- The session after a warning of the compiler. -/
def warn (s : Session) (warning? : Option Policy.Redeclaration) : Session :=
  s.log (warning?.toList.map fun warning =>
    .ofEngine .warning s.engine.name warning.message)

/-- The session after a publication. -/
def publish (s : Session) (c : Compiler) : Session :=
  (s.withCompiler c).log [.ofEngine .info s.engine.name c.published.message]

/-- The record of a registration in a graph. -/
def registered (g : Graph) (e : Entity) : Log.Record where
  level := .debug
  message :=
    let parents := Name.listLiteral (e.parents.map g.labelOf)
    s!"Registered {e.kind.name} '{e.label.display}' at level {e.level} with parents {parents}"

/-- The role that contexts of another graph have. -/
def strangerRole : Value := .ofTexts ["admin"]

/-- Look up what a reference mentions: an entity of this graph has to be registered, and one of
another graph is a context that is registered there at its first mention. -/
def mention (s : Session) : Ref → Except Error Session
  | .own name =>
    match s.engine.graph.find? name with
    | some _ => .ok s
    | none => .error (.misuse (.noKey (.text name)))
  | .foreign name =>
    if s.elsewhere.has name then .ok s
    else
      (s.elsewhere.register
        { kind := .context, name := .text name, roles := strangerRole }).map fun (g, e) =>
          { s with elsewhere := g }.log [registered g e]
  | .value _ => .ok s

/-- Look up several references in their order, up to the first that fails; what was registered
before it stays. -/
def mentionAll (s : Session) : List Ref → Except Error Unit × Session
  | [] => (.ok (), s)
  | ref :: rest =>
    match s.mention ref with
    | .error e => (.error e, s)
    | .ok s => s.mentionAll rest

/-- What was put aside under a label. -/
def aside {α : Type} (entries : List (Value × α)) (label : Value) : Except Error α := do
  Error.ofMisuse label.checkKey
  match Value.lookup entries label with
  | some found => return found
  | none => throw (.misuse (.noKey label))

/-- Put something aside under a label. -/
def putAside {α : Type} (entries : List (Value × α)) (label : Value) (thing : α) :
    Except Error (List (Value × α)) := do
  Error.ofMisuse label.checkKey
  return Value.putEntry entries label thing

/-- Call a setter. -/
def callSetter (s : Session) (setter : Setter) (given : Option Value) (named : Value) :
    Except Error Session :=
  (setter.call s.engine.compiler s.views given named).map fun outcome =>
    ({ s with views := outcome.views }.withCompiler outcome.compiler).warn outcome.warning?

end Session

end AccessMatrix
