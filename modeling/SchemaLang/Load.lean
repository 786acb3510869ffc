import SchemaLang.Conformance
import SchemaLang.Parse
import SchemaLang.Resolution

/-! Loading a text into a registry: it is read, its names are resolved, its objects are
checked, and if nothing is wrong its types are stored in the context document. -/

namespace SchemaLang

/-- When the types of a text are stored. -/
inductive Persistence where
  /-- If nothing is wrong. -/
  | onSuccess
  | never
  deriving DecidableEq, Repr

structure LoadOptions where
  /-- The context document; the current one if none is given. -/
  document : Option String := none
  persistence : Persistence := .onSuccess
  deriving DecidableEq, Repr

/-- What came of a text. -/
structure Loaded where
  document : Document
  diagnostics : Diagnostics
  /-- Did reading stop before the end of the text? -/
  aborted : Bool

namespace Loaded

/-- Was nothing wrong? -/
def isOk (l : Loaded) : Bool := l.diagnostics.isEmpty

def messages (l : Loaded) : List String := Diagnostics.messages l.diagnostics

def reports (l : Loaded) : List Report := l.diagnostics.map Diagnostic.report

end Loaded

/-- A reference as it is stored: what is bound to a slot is bound to the context document, since
slots are not the same there. -/
def TypeRef.store (context : String) (r : TypeRef) : TypeRef :=
  match r.binding with
  | some (.here _ kind) => { r with binding := some (.stored context kind) }
  | _ => r

namespace Registry

/-- The types of a document stored under their names in the context document. -/
def storeTypes (reg : Registry) (context : String) (d : Document) : Registry :=
  d.types.values.foldl
    (fun reg t => reg.setType context t.name.value (t.mapRefs (TypeRef.store context))) reg

/-- What is wrong with the objects of a resolved document. Objects are not checked if some type
promises to implement no interface, and those with unresolved fields are left out. -/
def checkResolved (reg : Registry) (r : Resolution) : Diagnostics :=
  if r.interfaceFailed then [] else reg.check r.document r.slotsWithUnresolvedFields

/-- Reads, resolves and checks a text in the context of a document. If reading stops before the
end of the text nothing else is done. -/
def examine (reg : Registry) (context source : String) : Loaded :=
  let p := parse source context
  if p.aborted then ⟨p.document, p.diagnostics, true⟩
  else
    let r := reg.resolve context p.document p.sites
    ⟨r.document, p.diagnostics ++ r.diagnostics ++ reg.checkResolved r, false⟩

/-- Loads a text: what came of it, and the registry afterwards. -/
def load (reg : Registry) (source : String) (options : LoadOptions) : Loaded × Registry :=
  let context := options.document.getD reg.current
  let l := reg.examine context source
  (l, if options.persistence = .onSuccess ∧ l.isOk then reg.storeTypes context l.document else reg)

end Registry

end SchemaLang
