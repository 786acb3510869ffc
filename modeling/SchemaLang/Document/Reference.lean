import SchemaLang.Document.Basic

/-! The references to types inside a document: where each one stands, listing them,
finding and changing the one at a path, and visiting those of one type in order. -/

namespace SchemaLang

/-! ### Paths -/

/-- Where a reference stands inside a type definition; fields are counted by slot. -/
inductive TypePath where
  | interface (index : Nat)
  | field (field : Nat)
  | argument (field argument : Nat)
  | member (index : Nat)
  | inputField (field : Nat)
  deriving DecidableEq, Repr

/-- Where a reference stands inside a document; types and directives are counted by slot. -/
inductive RefPath where
  | type (slot : Nat) (path : TypePath)
  | directiveArgument (directive argument : Nat)
  | rootOperation (index : Nat)
  deriving DecidableEq, Repr

namespace RefPath

/-- The slot of the type that the reference belongs to, if it belongs to one. -/
def slot? : RefPath → Option Nat
  | type slot _ => some slot
  | directiveArgument _ _ | rootOperation _ => none

/-- Does the reference name an interface that its type promises to implement? -/
def isInterface : RefPath → Bool
  | type _ (.interface _) => true
  | _ => false

/-- The slot of the type that has the reference as the type of a field of its own. -/
def ownField? : RefPath → Option Nat
  | type slot (.field _) => some slot
  | _ => none

end RefPath

/-- A reference as it was found: its path, its name and the place of the name. -/
structure RefSite where
  path : RefPath
  name : String
  location : Location
  deriving DecidableEq, Repr

namespace RefSite

def of (path : RefPath) (r : TypeRef) : RefSite := ⟨path, r.name, r.location⟩

def position (s : RefSite) : Position := s.location.position

end RefSite

/-! ### Inside a type definition -/

namespace FieldSet

/-- The references of an object or interface with their paths: the interfaces, then each
field's type followed by the types of its arguments. -/
def refs (b : FieldSet) : List (TypePath × TypeRef) :=
  (b.interfaces.zipIdx.map fun (r, i) => (.interface i, r)) ++
    b.fields.values.zipIdx.flatMap fun (f, i) =>
      (.field i, f.type) :: f.arguments.zipIdx.map fun (a, j) => (.argument i j, a.type)

/-- The reference at a path. -/
def ref? (b : FieldSet) : TypePath → Option TypeRef
  | .interface i => b.interfaces[i]?
  | .field i => (b.fields.at? i).map (·.type)
  | .argument i j => do
    let f ← b.fields.at? i
    let a ← f.arguments[j]?
    return a.type
  | .member _ | .inputField _ => none

/-- The reference at a path changed, if there is one. -/
def modifyRef (b : FieldSet) (f : TypeRef → TypeRef) : TypePath → FieldSet
  | .interface i => { b with interfaces := b.interfaces.modify i f }
  | .field i => { b with fields := b.fields.modify i fun fd => { fd with type := f fd.type } }
  | .argument i j =>
    { b with fields := b.fields.modify i fun fd =>
        { fd with arguments := fd.arguments.modify j fun a => { a with type := f a.type } } }
  | .member _ | .inputField _ => b

variable {σ : Type}

/-- Every reference changed in order by a step that carries a state. -/
def visitRefs (f : TypeRef → StateM σ TypeRef) (b : FieldSet) : StateM σ FieldSet := do
  let interfaces ← b.interfaces.mapM f
  let fields ← b.fields.visit fun fd => do
    let type ← f fd.type
    let arguments ← fd.arguments.mapM fun a => do return { a with type := ← f a.type }
    return { fd with type, arguments }
  return { interfaces, fields }

end FieldSet

namespace TypeDefinition

/-- The references of a type definition with their paths. -/
def refs (d : TypeDefinition) : List (TypePath × TypeRef) :=
  match d.body with
  | .scalar | .enum _ => []
  | .object b | .interface b => b.refs
  | .union rs => rs.zipIdx.map fun (r, i) => (.member i, r)
  | .input fs => fs.values.zipIdx.map fun (v, i) => (.inputField i, v.type)

/-- The sites of the references, for a type in slot `slot`. -/
def sites (d : TypeDefinition) (slot : Nat) : List RefSite :=
  d.refs.map fun (p, r) => .of (.type slot p) r

/-- The reference at a path. -/
def ref? (d : TypeDefinition) (p : TypePath) : Option TypeRef :=
  match d.body, p with
  | .object b, p | .interface b, p => b.ref? p
  | .union rs, .member i => rs[i]?
  | .input fs, .inputField i => (fs.at? i).map (·.type)
  | _, _ => none

/-- The reference at a path changed, if there is one. -/
def modifyRef (d : TypeDefinition) (p : TypePath) (f : TypeRef → TypeRef) : TypeDefinition :=
  match d.body, p with
  | .object b, p => { d with body := .object (b.modifyRef f p) }
  | .interface b, p => { d with body := .interface (b.modifyRef f p) }
  | .union rs, .member i => { d with body := .union (rs.modify i f) }
  | .input fs, .inputField i =>
    { d with body := .input (fs.modify i fun v => { v with type := f v.type }) }
  | _, _ => d

variable {σ : Type}

/-- Every reference changed in order by a step that carries a state. -/
def visitRefs (f : TypeRef → StateM σ TypeRef) (d : TypeDefinition) : StateM σ TypeDefinition := do
  let body ← match d.body with
    | .scalar => pure .scalar
    | .enum values => pure (.enum values)
    | .object b => .object <$> b.visitRefs f
    | .interface b => .interface <$> b.visitRefs f
    | .union rs => .union <$> rs.mapM f
    | .input fs => .input <$> fs.visit fun v => do return { v with type := ← f v.type }
  return { d with body }

/-- Every reference changed. -/
def mapRefs (f : TypeRef → TypeRef) (d : TypeDefinition) : TypeDefinition :=
  (d.visitRefs (fun r => (pure (f r) : StateM Unit TypeRef)) ()).1

end TypeDefinition

/-! ### Inside a document -/

namespace Document

/-- All references with their paths: those of the types, of the directive definitions, and of
the schema. -/
def refs (d : Document) : List (RefPath × TypeRef) :=
  (d.types.values.zipIdx.flatMap fun (t, i) => t.refs.map fun (p, r) => (.type i p, r)) ++
  (d.directives.values.zipIdx.flatMap fun (v, i) =>
    v.arguments.zipIdx.map fun (a, j) => (.directiveArgument i j, a.type)) ++
  ((d.schema.map (·.operations)).getD []).zipIdx.map fun (op, i) => (.rootOperation i, op.type)

/-- The sites of all references by position. -/
def sites (d : Document) : List RefSite :=
  (d.refs.map fun (p, r) => RefSite.of p r).mergeSort fun s t => s.position.le t.position

/-- The reference at a path. -/
def ref? (d : Document) : RefPath → Option TypeRef
  | .type slot p => do (← d.types.at? slot).ref? p
  | .directiveArgument i j => do
    let v ← d.directives.at? i
    let a ← v.arguments[j]?
    return a.type
  | .rootOperation i => do
    let s ← d.schema
    let op ← s.operations[i]?
    return op.type

/-- The reference at a path changed, if there is one. -/
def modifyRef (d : Document) (f : TypeRef → TypeRef) : RefPath → Document
  | .type slot p => { d with types := d.types.modify slot fun t => t.modifyRef p f }
  | .directiveArgument i j =>
    { d with directives := d.directives.modify i fun v =>
        { v with arguments := v.arguments.modify j fun a => { a with type := f a.type } } }
  | .rootOperation i =>
    { d with schema := d.schema.map fun s =>
        { s with operations := s.operations.modify i fun op => { op with type := f op.type } } }

/-- The reference at a path bound to something, if there is one. -/
def bind (d : Document) (p : RefPath) (b : Option Binding) : Document :=
  d.modifyRef (fun r => { r with binding := b }) p

end Document

end SchemaLang
