import SchemaLang.Location

/-! References to types: a name under wrappers, the place of the name, and what the
name is bound to, once that is known. Two references say the same if names and wrappers
agree; place and binding do not count. -/

namespace SchemaLang

/-- The types that every document may name without declaring them. -/
def builtinScalars : List String := ["Int", "Float", "String", "Boolean", "ID"]

def isBuiltinScalar (name : String) : Bool := builtinScalars.contains name

inductive Wrapper where
  /-- A list of what is inside. -/
  | list
  /-- What is inside and never null. -/
  | nonNull
  deriving DecidableEq, Repr

inductive TypeKind where
  | scalar | object | interface | union | enum | input
  deriving DecidableEq, Repr

/-- The keyword that a definition of this kind begins with. -/
def TypeKind.text : TypeKind → String
  | scalar => "scalar"
  | object => "type"
  | interface => "interface"
  | union => "union"
  | enum => "enum"
  | input => "input"

/-- What the name of a reference stands for. -/
inductive Binding where
  | builtin
  /-- A type of the same document, by its slot. -/
  | here (slot : Nat) (kind : TypeKind)
  /-- A type that a registry holds in the named document. -/
  | stored (document : String) (kind : TypeKind)
  deriving DecidableEq, Repr

def Binding.kind : Binding → TypeKind
  | builtin => .scalar
  | here _ k => k
  | stored _ k => k

/-- A type by name, under wrappers that are listed from the innermost on. -/
structure TypeRef where
  name : String
  wrappers : List Wrapper
  /-- The place of the name. -/
  location : Location
  binding : Option Binding
  deriving DecidableEq, Repr

namespace TypeRef

/-- A bare name, bound to nothing. -/
def named (name : String) (location : Location) : TypeRef := ⟨name, [], location, none⟩

/-- One more wrapper around the others. -/
def wrap (r : TypeRef) (w : Wrapper) : TypeRef := { r with wrappers := r.wrappers ++ [w] }

def isResolved (r : TypeRef) : Bool := r.binding.isSome

def isNonNull (r : TypeRef) : Bool := r.wrappers.getLast? == some .nonNull

def isList (r : TypeRef) : Bool := r.wrappers.contains .list

/-- The same name under the same wrappers. -/
def same (r s : TypeRef) : Bool := r.wrappers == s.wrappers && r.name == s.name

instance : BEq TypeRef := ⟨same⟩

theorem same_iff {r s : TypeRef} :
    r.same s = true ↔ r.name = s.name ∧ r.wrappers = s.wrappers := by
  simp [same, and_comm]

end TypeRef

end SchemaLang
