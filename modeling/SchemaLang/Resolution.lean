import SchemaLang.Diagnostic
import SchemaLang.Document.Reference
import SchemaLang.Registry

/-! Finding what names stand for. A name is looked for among the built-in scalars, then in
the document itself, then in the context document of a registry. The order of declaration
does not matter, since a document is complete before any of its names is looked up. -/

namespace SchemaLang

/-- What `name` stands for in document `d`, with the registry's document `context` behind it. -/
def Registry.lookup (r : Registry) (context : String) (d : Document) (name : String) :
    Option Binding :=
  if isBuiltinScalar name then some .builtin
  else
    match d.types.slot? name, d.get? name with
    | some slot, some t => some (.here slot t.kind)
    | _, _ => (r.type? context name).map fun t => .stored context t.kind

/-- The binding for a site, or what is wrong with it. An interface that a type promises to
implement has to be one. -/
def Registry.bindingFor (r : Registry) (context : String) (d : Document) (s : RefSite) :
    Except Diagnostic Binding :=
  match r.lookup context d s.name with
  | none => .error ⟨.undefinedType s.name context, s.location⟩
  | some b =>
    if s.path.isInterface ∧ b.kind ≠ .interface then
      .error ⟨.notAnInterface s.name, s.location⟩
    else .ok b

/-- A document with bindings, and the sites that could not be bound, in order. -/
structure Resolution where
  document : Document
  diagnostics : Diagnostics
  failed : List RefPath

namespace Resolution

/-- Was every site bound? -/
def isOk (r : Resolution) : Bool := r.failed.isEmpty

/-- Does some type promise to implement what is missing or no interface? -/
def interfaceFailed (r : Resolution) : Bool := r.failed.any (·.isInterface)

/-- The slots of the types with a field whose own type was not found. -/
def slotsWithUnresolvedFields (r : Resolution) : List Nat :=
  (r.failed.filterMap (·.ownField?)).eraseDups

end Resolution

/-- The document `d` with the reference at a site bound, if there is a binding for it. Names are
looked up in the document `scope`. -/
def Document.bindSite (r : Registry) (context : String) (scope d : Document) (s : RefSite) :
    Document :=
  match r.bindingFor context scope s with
  | .ok b => d.bind s.path (some b)
  | .error _ => d

/-- Binds the references at the sites, each name being looked up in the document as given. -/
def Registry.resolve (r : Registry) (context : String) (d : Document) (sites : List RefSite) :
    Resolution where
  document := sites.foldl (Document.bindSite r context d) d
  diagnostics := sites.filterMap fun s =>
    match r.bindingFor context d s with
    | .ok _ => none
    | .error e => some e
  failed := sites.filterMap fun s =>
    match r.bindingFor context d s with
    | .ok _ => none
    | .error _ => some s.path

end SchemaLang
