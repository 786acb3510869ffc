import SchemaLang.Diagnostic
import SchemaLang.Registry

/-! Whether objects keep the promises they make: an object declares every field of each of
its interfaces, under the same name and with the same type in the same wrappers. -/

namespace SchemaLang

/-- The definition that the name of a reference is bound to. -/
def Registry.definitionOf (reg : Registry) (d : Document) (r : TypeRef) :
    Option TypeDefinition :=
  match r.binding with
  | some (.here slot _) => d.types.at? slot
  | some (.stored document _) => reg.type? document r.name
  | some .builtin | none => none

/-- The names of the required fields that are not among the given ones with the same type, in
the order of the required ones. -/
def missingFields (given required : Table Field) : List String :=
  (required.values.filter fun f =>
    !(given.get? f.name.value).any fun g => g.type == f.type).map (·.name.value)

/-- What is missing in an object for one of its interfaces. -/
def Registry.checkInterface (reg : Registry) (d : Document) (object : TypeDefinition)
    (given : Table Field) (interface : TypeRef) : Option Diagnostic := do
  let required ← (← reg.definitionOf d interface).fields?
  let missing := missingFields given required
  if missing.isEmpty then none
  else some ⟨.missingFields object.name.value interface.name missing, object.name.location⟩

/-- What is missing in a type; only objects are held to their interfaces. -/
def Registry.checkType (reg : Registry) (d : Document) (t : TypeDefinition) : Diagnostics :=
  match t.body with
  | .object b => b.interfaces.filterMap (reg.checkInterface d t b.fields)
  | .scalar | .interface _ | .union _ | .enum _ | .input _ => []

/-- What is missing in the types of a document, those in the slots `skip` left out. -/
def Registry.check (reg : Registry) (d : Document) (skip : List Nat) : Diagnostics :=
  d.types.values.zipIdx.flatMap fun (t, slot) =>
    if skip.contains slot then [] else reg.checkType d t

end SchemaLang
