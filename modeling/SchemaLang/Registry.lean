import SchemaLang.Document.Printer

/-! Registries: documents under their names, one of which is the current one. The current
document is the one that was activated last, or else the default one. -/

namespace SchemaLang

/-- The name of the document that a registry begins with. -/
def defaultDocument : String := "DefaultDoc"

structure Registry where
  documents : Table Document
  /-- The document that was activated, if one was. -/
  active : Option String
  /-- The document that is current while none is active. -/
  fallback : String

/-- What can go wrong with a registry. -/
inductive RegistryError where
  | notFound (document name : String)
  deriving DecidableEq, Repr

namespace RegistryError

def message : RegistryError → String
  | notFound document name =>
    "type \"" ++ name ++ "\" not found in document \"" ++ document ++ "\""

/-- Is a document or a type missing? -/
def isNotFound : RegistryError → Bool
  | notFound _ _ => true

end RegistryError

namespace Registry

/-- A registry of no documents. -/
def empty (fallback : String) : Registry := ⟨∅, none, fallback⟩

instance : Inhabited Registry := ⟨empty defaultDocument⟩

def document? (r : Registry) (name : String) : Option Document := r.documents.get? name

/-- The type of a name in a document. -/
def type? (r : Registry) (document name : String) : Option TypeDefinition := do
  (← r.document? document).get? name

/-- The document that deletions act on and that loading uses if it is not told otherwise. -/
def current (r : Registry) : String := r.active.getD r.fallback

/-- A type put under a name in a document, which is made if there is none. -/
def setType (r : Registry) (document name : String) (t : TypeDefinition) : Registry :=
  let d := (r.document? document).getD (.empty document)
  { r with documents := r.documents.insert document (d.insertUnder name t) }

/-- The type of a name taken out of the current document, and the registry without it. -/
def deleteType (r : Registry) (name : String) :
    Except RegistryError (TypeDefinition × Registry) :=
  match (r.document? r.current).bind fun d => (d.get? name).map (d, ·) with
  | some (d, t) => .ok (t, { r with documents := r.documents.insert r.current (d.erase name) })
  | none => .error (.notFound r.current name)

def setFallback (r : Registry) (name : String) : Registry := { r with fallback := name }

def activate (r : Registry) (name : String) : Registry := { r with active := some name }

/-- A document put under its own name. -/
def replaceDocument (r : Registry) (d : Document) : Registry :=
  { r with documents := r.documents.insert d.name d }

/-- The schema text of a document. -/
def printDocument (r : Registry) (name : String) : Option String :=
  (r.document? name).map (·.print {})

end Registry

end SchemaLang
