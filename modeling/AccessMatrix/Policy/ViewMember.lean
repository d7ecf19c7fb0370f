import AccessMatrix.Policy.ContextView

/-!
# Members of a context's view

Besides the roles, the view of a context has members of its own, as every mapping has. A member can
be called like a setter; it declares nothing, and most calls are refused because the arguments do not
fit. What a call does rests on what the view stores at the moment, and a few calls change that.
-/

namespace AccessMatrix.Policy

/-- What a member does with its arguments. -/
inductive ViewUse where
  | nothing
  | length
  | keys
  | seek
  | item
  | member
  | compare
  | store
  | erase
  | lookUp
  | layout
  | number
  deriving DecidableEq, Repr

/-- The form of a member: a plain value, all that the view stores, a method with a receiver and
parameters, what takes a count of arguments or exactly one or none, all by position only, or the
maker of new things. Some refuse arguments by name without a look at the names. -/
inductive MemberForm where
  | value (kind : String)
  | stored
  | method (called receiver : String) (required optional : List String)
  | counted (called lead : String) (own count : Nat) (seesNames : Bool)
  | single (called : String)
  | bare (called : String)
  | maker
  deriving DecidableEq, Repr

/-- A member of a view: its title, which is what it is called where its arguments by name are no
mapping, its form, and its use. -/
structure ViewMember where
  title : String
  form : MemberForm
  use : ViewUse := .nothing
  deriving DecidableEq, Repr

/-- Arguments given by name; every name is a text. -/
def namedArguments (named : List (Value × Value)) : Except Misuse (List (Name × Value)) :=
  named.mapM fun entry =>
    match Name.ofValue? entry.1 with
    | some name => .ok (name, entry.2)
    | none => .error (.call .nameNotText)

/-- Arguments by name come from a mapping. -/
def namedEntries (called : String) : Value → Except Misuse (List (Value × Value))
  | .mapping entries => .ok entries
  | other => .error (.call (.notMapping called other.typeName))

namespace ViewMember

/-- Where views are defined, as titles name it. -/
def viewModule : String := "permission_manager.policies.compiler."

/-- A plain value that is a member. -/
def plain (kind title : String) : ViewMember := ⟨title, .value kind, .nothing⟩

/-- The title of a callable. -/
def titleOf (called : String) : String := called ++ "()"

/-- A method of the view itself. -/
def ofView (name : String) (required : List String) (use : ViewUse) : ViewMember :=
  let called := ContextView.kind ++ "." ++ name
  ⟨titleOf (viewModule ++ called), .method called "self" required [], use⟩

/-- The parameters of what makes a view. -/
def makerParameters : List String := [ContextView.contextMember, "setters"]

/-- A method that the view has as a mapping. -/
def ofMapping (name : String) (required : List String := []) (use : ViewUse := .nothing)
    (optional : List String := []) : ViewMember :=
  ⟨titleOf ("collections.abc.Mapping." ++ name),
    .method ("Mapping." ++ name) "self" required optional, use⟩

/-- A comparison or another operation with a count of operands. -/
def operation (name : String) (count : Nat) (use : ViewUse := .nothing) (lead : String := "") :
    ViewMember :=
  ⟨titleOf ("object." ++ name), .counted ("wrapper " ++ name) lead 0 count false, use⟩

/-- What everything has and every kind has in a form of its own. -/
def ofKind (form : String → MemberForm) (name : String) (use : ViewUse := .nothing) : ViewMember :=
  let called := ContextView.kind ++ "." ++ name
  ⟨titleOf called, form called, use⟩

/-- What views are for. -/
def purpose : String :=
  "Role name \u2192 setter for one context, as seen from one subject.\n\n" ++
    "    Setters accept a mapping, keyword arguments, or both::\n\n" ++
    "        cfg.contexts[\"course\"][\"staff\"](\x7b\"read\": 1\x7d)\n" ++
    "        cfg.contexts[\"course\"].staff(read=1, update=0)\n    "

/-- The members that are plain values. -/
def values : List (String × ViewMember) :=
  let nothing := plain "NoneType" "None"
  [("__dict__", ⟨"", .stored, .nothing⟩), ("__doc__", plain "str" purpose),
    ("__module__", plain "str" "permission_manager.policies.compiler"), ("__hash__", nothing),
    ("__reversed__", nothing), ("__weakref__", nothing), ("__slots__", plain "tuple" "()"),
    ("__orig_bases__",
      plain "tuple" "(collections.abc.Mapping[str, typing.Callable[..., NoneType]],)"),
    ("__abstractmethods__", plain "frozenset" "frozenset()"),
    ("_abc_impl", plain "_abc._abc_data" "<_abc._abc_data object>")]

/-- The members that make the view a mapping. -/
def ofMappings : List (String × ViewMember) :=
  [("__len__", ofView "__len__" [] .length), ("__iter__", ofView "__iter__" [] .keys),
    ("__getitem__", ofView "__getitem__" ["role_name"] .item),
    ("__getattr__", ofView "__getattr__" ["role_name"] .member),
    ("__contains__", ofMapping "__contains__" ["key"] .seek),
    ("get", ofMapping "get" ["key"] .seek ["default"]), ("keys", ofMapping "keys"),
    ("items", ofMapping "items"), ("values", ofMapping "values"),
    ("__eq__", ofMapping "__eq__" ["other"] .compare),
    ("__subclasshook__", ⟨titleOf "collections.abc.Collection.__subclasshook__",
      .method "Collection.__subclasshook__" "cls" ["C"] [], .nothing⟩),
    ("__class_getitem__", ⟨titleOf "types.GenericAlias",
      .counted "GenericAlias" "GenericAlias " 1 1 true, .nothing⟩)]

/-- The members that the view has as everything has them. -/
def general : List (String × ViewMember) :=
  (["__repr__", "__str__"].map fun name => (name, operation name 0)) ++
  (["__lt__", "__le__", "__gt__", "__ge__"].map fun name => (name, operation name 1)) ++
  (["__dir__", "__getstate__", "__init_subclass__", "__reduce__", "__sizeof__"].map fun name =>
    (name, ofKind .bare name)) ++
  [("__ne__", operation "__ne__" 1 .compare), ("__init__", ofView "__init__" makerParameters .store),
    ("__class__", { ofView "__init__" makerParameters .nothing with
      title := titleOf (viewModule ++ ContextView.kind) }),
    ("__new__", ⟨titleOf "object.__new__", .maker, .nothing⟩),
    ("__format__", ofKind .single "__format__" .layout),
    ("__reduce_ex__", ofKind .single "__reduce_ex__" .number),
    ("__setattr__", operation "__setattr__" 2 .nothing " "),
    ("__delattr__", operation "__delattr__" 1 .erase),
    ("__getattribute__", operation "__getattribute__" 1 .lookUp)]

/-- What every view has besides its roles and the two members that it stores, by name. -/
def named : List (String × ViewMember) := values ++ ofMappings ++ general

end ViewMember

namespace ViewUse

/-- Look up a member of a view under its own name. -/
def findMember (view : ContextView) (name : String) : Except Misuse Unit :=
  let found :=
    match view.stored? name with
    | some .absent => false
    | some _ => true
    | none => (ViewMember.named.lookup name).isSome
  if found then .ok () else .error (.noMember ContextView.kind name)

/-- Check a layout for a view, which has only the empty one. -/
def checkLayout (value : Value) : Except Misuse Unit :=
  match value, value.asText? with
  | .null, _ => .error (.call (.layoutNotText value.literal))
  | _, none => .error (.call (.layoutNotText value.typeName))
  | _, some text => if text = "" then .ok () else .error (.call (.unknownLayout ContextView.kind))

/-- Check a number, which has to fit in 32 bits. -/
def checkNumber (value : Value) : Except Misuse Unit :=
  match value.position? with
  | none => .error (.notInteger value.typeName)
  | some n => if n < -Int.pow 2 31 ∨ Int.pow 2 31 ≤ n then .error .hugeInteger else .ok ()

/-- The text that names a member. -/
def memberName (value : Value) : Except Misuse String :=
  match value.asText? with
  | some name => .ok name
  | none => .error (.memberNotNamed value.typeName)

/-- Use arguments on a view, which is returned if it was altered. -/
def perform (use : ViewUse) (view : ContextView) (arguments : List Value) :
    Except Misuse (Option ContextView) :=
  match use, arguments with
  | length, _ => view.length.map fun _ => none
  | keys, _ => view.keys.map fun _ => none
  | seek, key :: _ => (view.seek key).map fun _ => none
  | item, key :: _ => (view.item key).map fun _ => none
  | member, key :: _ => (view.member key).map fun _ => none
  | compare, other :: _ => (view.compare other).map fun _ => none
  | store, context :: setters :: _ => .ok (some (view.store context setters))
  | erase, name :: _ => ((memberName name).bind view.erase).map some
  | lookUp, name :: _ => ((memberName name).bind (findMember view)).map fun _ => none
  | layout, value :: _ => (checkLayout value).map fun _ => none
  | number, value :: _ => (checkNumber value).map fun _ => none
  | _, _ => .ok none

end ViewUse

namespace ViewMember

/-- The arguments of a method in the order of its parameters, with a first argument by position and
others by name. -/
def methodArguments (called receiver : String) (required optional : List String)
    (given : Option Value) (named : List (Name × Value)) : Except Misuse (List Value) := do
  let parameters := required ++ optional
  let byPosition := if given.isSome then parameters.take 1 else []
  let names := named.map (·.1.display)
  CallFault.checkNames called parameters (receiver :: byPosition) names
  if given.isSome && parameters.isEmpty then throw (.call (.surplus called 1 2))
  let missing := required.filter fun name => !(byPosition ++ names).contains name
  if !missing.isEmpty then throw (.call (.missing called missing))
  return given.toList ++ (parameters.drop byPosition.length).filterMap fun name =>
    (named.find? fun entry => entry.1.display = name).map (·.2)

/-- The arguments of a member with a first argument by position and others by name. -/
def arguments (form : MemberForm) (given : Option Value) (named : List (Value × Value)) :
    Except Misuse (List Value) :=
  let count := given.toList.length
  match form with
  | .value kind => .error (.call (.notCallable kind))
  | .stored => .error (.call (.notCallable "dict"))
  | .method called receiver required optional => do
    methodArguments called receiver required optional given (← namedArguments named)
  | .counted called lead own expected seesNames => do
    if seesNames then let _ ← namedArguments named
    if !named.isEmpty then throw (.call (.noNames called))
    if count ≠ expected then throw (.call (.count lead (own + expected) (own + count)))
    return given.toList
  | .single called => do
    if !(← namedArguments named).isEmpty then throw (.call (.noNames called))
    if count ≠ 1 then throw (.call (.exactlyOne called count))
    return given.toList
  | .bare called => do
    if !(← namedArguments named).isEmpty then throw (.call (.noNames called))
    if count ≠ 0 then throw (.call (.noArguments called count))
    return given.toList
  | .maker =>
    match given with
    | none => .error (.call (.notEnough "object.__new__"))
    | some first => .error (.call (.notType "object.__new__" first.typeName))

/-- Call a member of a view, which is returned if it was altered. -/
def call (member : ViewMember) (view : ContextView) (given : Option Value) (named : Value) :
    Except Misuse (Option ContextView) := do
  let named ← namedEntries member.title named
  member.use.perform view (← arguments member.form given named)

end ViewMember

end AccessMatrix.Policy
