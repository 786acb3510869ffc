import SchemaLang.Document.Basic

/-! When two documents say the same. Places, bindings and the names of the documents do
not count, nor does the order of types, directive definitions, fields and input fields,
which are found by name; the order of everything else does. -/

namespace SchemaLang

instance : BEq Name := ⟨fun a b => a.value == b.value⟩

instance : BEq Argument := ⟨fun a b => a.name == b.name && a.value == b.value⟩

instance : BEq Directive := ⟨fun a b => a.name == b.name && a.arguments == b.arguments⟩

instance : BEq InputValue := ⟨fun a b =>
  a.description == b.description && a.name == b.name && a.type == b.type &&
    a.defaultValue == b.defaultValue && a.directives == b.directives⟩

instance : BEq Field := ⟨fun a b =>
  a.description == b.description && a.name == b.name && a.arguments == b.arguments &&
    a.type == b.type && a.directives == b.directives⟩

instance : BEq EnumValue := ⟨fun a b =>
  a.description == b.description && a.name == b.name && a.directives == b.directives⟩

instance : BEq FieldSet := ⟨fun a b => a.interfaces == b.interfaces && a.fields == b.fields⟩

/-- The same kind of body with the same content. -/
def TypeBody.beq : TypeBody → TypeBody → Bool
  | scalar, scalar => true
  | object a, object b => a == b
  | interface a, interface b => a == b
  | union a, union b => a == b
  | enum a, enum b => a == b
  | input a, input b => a == b
  | _, _ => false

instance : BEq TypeBody := ⟨TypeBody.beq⟩

instance : BEq TypeDefinition := ⟨fun a b =>
  a.description == b.description && a.name == b.name && a.directives == b.directives &&
    a.body == b.body⟩

instance : BEq RootOperation := ⟨fun a b => a.kind == b.kind && a.type == b.type⟩

instance : BEq Schema := ⟨fun a b =>
  a.description == b.description && a.directives == b.directives && a.operations == b.operations⟩

instance : BEq DirectiveDefinition := ⟨fun a b =>
  a.description == b.description && a.name == b.name && a.arguments == b.arguments &&
    a.repeatable == b.repeatable && a.locations == b.locations⟩

instance : BEq Document := ⟨fun a b =>
  a.schema == b.schema && a.directives == b.directives && a.types == b.types⟩

end SchemaLang
