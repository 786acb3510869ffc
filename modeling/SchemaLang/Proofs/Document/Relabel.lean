import SchemaLang.Proofs.Document.Plain
import SchemaLang.Proofs.References

/-! Documents with other labels. Places, bindings and descriptions are labels: they can be
changed all over a document while names, wrappers, values and order stay. A document with other
labels has the same references at the same paths, and if the descriptions stay too it is printed
alike and compares alike. Stripping a document of its places is one such change. -/

namespace SchemaLang

/-! ### Labels -/

/-- New labels: places, references with other places and bindings, and descriptions outside of
argument lists. -/
structure Relabeling extends Rewording where
  place : Location → Location
  ref : TypeRef → TypeRef
  name_ref : ∀ r, (ref r).name = r.name
  wrappers_ref : ∀ r, (ref r).wrappers = r.wrappers

namespace Relabeling

/-- Other places only. -/
def moving (f : Location → Location) : Relabeling :=
  ⟨.none, f, fun r => { r with location := f r.location }, fun _ => rfl, fun _ => rfl⟩

/-- Other bindings only. -/
def binding (f : TypeRef → Option Binding) : Relabeling :=
  ⟨.none, id, fun r => { r with binding := f r }, fun _ => rfl, fun _ => rfl⟩

/-- Bindings by name only. -/
def settling (f : String → Option Binding) : Relabeling := binding fun r => f r.name

/-- No bindings. -/
def unbind : Relabeling := binding fun _ => none

/-- No places, and other descriptions. -/
def reword (w : Rewording) : Relabeling :=
  ⟨w, fun _ => default, TypeRef.plain, fun _ => rfl, fun _ => rfl⟩

/-- No places. -/
def plain : Relabeling := reword .none

/-- The labels `σ` put over the labels `ρ`. -/
def comp (σ ρ : Relabeling) : Relabeling where
  outer := σ.outer ∘ ρ.outer
  inner := σ.inner ∘ ρ.inner
  place := σ.place ∘ ρ.place
  ref := σ.ref ∘ ρ.ref
  name_ref := fun r => (σ.name_ref _).trans (ρ.name_ref r)
  wrappers_ref := fun r => (σ.wrappers_ref _).trans (ρ.wrappers_ref r)

/-- Neither places nor bindings: what is left is what a document says. -/
def bare : Relabeling := plain.comp unbind

end Relabeling

section Relabel

variable (ρ : Relabeling)

def Name.relabel (n : Name) : Name := { n with location := ρ.place n.location }

def Argument.relabel (a : Argument) : Argument := { a with name := a.name.relabel ρ }

def Directive.relabel (d : Directive) : Directive where
  name := d.name.relabel ρ
  arguments := d.arguments.map (Argument.relabel ρ)

/-- An argument or input field with its description worded by `f`. -/
def InputValue.relabel (f : String → String) (v : InputValue) : InputValue where
  description := v.description.map f
  name := v.name.relabel ρ
  type := ρ.ref v.type
  defaultValue := v.defaultValue
  directives := v.directives.map (Directive.relabel ρ)

def Field.relabel (f : Field) : Field where
  description := f.description.map ρ.inner
  name := f.name.relabel ρ
  arguments := f.arguments.map (InputValue.relabel ρ id)
  type := ρ.ref f.type
  directives := f.directives.map (Directive.relabel ρ)

def EnumValue.relabel (v : EnumValue) : EnumValue where
  description := v.description.map ρ.inner
  name := v.name.relabel ρ
  directives := v.directives.map (Directive.relabel ρ)

def FieldSet.relabel (b : FieldSet) : FieldSet where
  interfaces := b.interfaces.map ρ.ref
  fields := b.fields.map (Field.relabel ρ)

def TypeBody.relabel : TypeBody → TypeBody
  | scalar => scalar
  | object b => object (b.relabel ρ)
  | interface b => interface (b.relabel ρ)
  | union rs => union (rs.map ρ.ref)
  | enum vs => enum (vs.map (EnumValue.relabel ρ))
  | input fs => input (fs.map (InputValue.relabel ρ ρ.inner))

def TypeDefinition.relabel (t : TypeDefinition) : TypeDefinition where
  description := t.description.map ρ.outer
  name := t.name.relabel ρ
  directives := t.directives.map (Directive.relabel ρ)
  body := t.body.relabel ρ

def RootOperation.relabel (op : RootOperation) : RootOperation := { op with type := ρ.ref op.type }

def Schema.relabel (s : Schema) : Schema where
  description := s.description.map ρ.outer
  directives := s.directives.map (Directive.relabel ρ)
  operations := s.operations.map (RootOperation.relabel ρ)

def DirectiveDefinition.relabel (v : DirectiveDefinition) : DirectiveDefinition where
  description := v.description.map ρ.outer
  name := v.name.relabel ρ
  arguments := v.arguments.map (InputValue.relabel ρ id)
  repeatable := v.repeatable
  locations := v.locations

def Definition.relabel : Definition → Definition
  | schema s => schema (s.relabel ρ)
  | directive v => directive (v.relabel ρ)
  | type t => type (t.relabel ρ)

def Document.relabel (d : Document) : Document where
  name := d.name
  schema := d.schema.map (Schema.relabel ρ)
  directives := d.directives.map (DirectiveDefinition.relabel ρ)
  types := d.types.map (TypeDefinition.relabel ρ)

end Relabel

variable {ρ σ : Relabeling}

/-! ### What stays -/

@[simp] theorem Name.value_relabel (n : Name) : (n.relabel ρ).value = n.value := rfl

@[simp] theorem TypeBody.kind_relabel (b : TypeBody) : (b.relabel ρ).kind = b.kind := by
  cases b <;> rfl

@[simp] theorem TypeBody.fieldSet?_relabel (b : TypeBody) :
    (b.relabel ρ).fieldSet? = b.fieldSet?.map (FieldSet.relabel ρ) := by
  cases b <;> rfl

@[simp] theorem Field.name_relabel (f : Field) : (f.relabel ρ).name = f.name.relabel ρ := rfl

@[simp] theorem Field.type_relabel (f : Field) : (f.relabel ρ).type = ρ.ref f.type := rfl

@[simp] theorem TypeDefinition.name_relabel (t : TypeDefinition) :
    (t.relabel ρ).name = t.name.relabel ρ := rfl

@[simp] theorem TypeDefinition.body_relabel (t : TypeDefinition) :
    (t.relabel ρ).body = t.body.relabel ρ := rfl

theorem TypeBody.relabel_eq_object_iff {t : TypeBody} {b : FieldSet} :
    t.relabel ρ = .object b ↔ ∃ c, t = .object c ∧ c.relabel ρ = b := by
  cases t <;> simp [TypeBody.relabel]

@[simp] theorem TypeDefinition.kind_relabel (t : TypeDefinition) :
    (t.relabel ρ).kind = t.kind := t.body.kind_relabel

@[simp] theorem TypeDefinition.fields?_relabel (t : TypeDefinition) :
    (t.relabel ρ).fields? = t.fields?.map (Table.map (Field.relabel ρ)) := by
  rw [fields?, fields?, relabel, TypeBody.fieldSet?_relabel, Option.map_map, Option.map_map]
  rfl

@[simp] theorem TypeDefinition.interfaces_relabel (t : TypeDefinition) :
    (t.relabel ρ).interfaces = t.interfaces.map ρ.ref := by
  rw [interfaces, interfaces, relabel, TypeBody.fieldSet?_relabel]
  cases t.body.fieldSet? <;> rfl

@[simp] theorem Document.types_relabel (d : Document) :
    (d.relabel ρ).types = d.types.map (TypeDefinition.relabel ρ) := rfl

theorem Document.get?_relabel (d : Document) (n : String) :
    (d.relabel ρ).get? n = (d.get? n).map (TypeDefinition.relabel ρ) := Table.get?_map _

theorem TypeBody.descriptions_relabel (hi : ρ.inner = id) (b : TypeBody) :
    (b.relabel ρ).descriptions = b.descriptions := by
  cases b <;>
    simp [descriptions, relabel, FieldSet.relabel, Field.relabel, EnumValue.relabel,
      InputValue.relabel, hi, List.filterMap_map]

/-- With other places and bindings the descriptions stay. -/
theorem Document.descriptions_relabel (hρ : ρ.toRewording = .none) (d : Document) :
    (d.relabel ρ).descriptions = d.descriptions := by
  have hi : ρ.inner = id := congrArg Rewording.inner hρ
  have ho : ρ.outer = id := congrArg Rewording.outer hρ
  simp only [descriptions, relabel, Table.values_map, List.filterMap_map, List.flatMap_map,
    Function.comp_def, Schema.relabel, DirectiveDefinition.relabel, TypeDefinition.relabel, ho,
    TypeBody.descriptions_relabel hi, Option.map_id, id, Option.bind_map]

/-! ### Labels over labels -/

theorem Directive.relabel_relabel (d : Directive) :
    (d.relabel ρ).relabel σ = d.relabel (σ.comp ρ) := by
  simp only [relabel, List.map_map]
  rfl

theorem InputValue.relabel_relabel (f g : String → String) (v : InputValue) :
    (v.relabel ρ f).relabel σ g = v.relabel (σ.comp ρ) (g ∘ f) := by
  simp [relabel, Directive.relabel_relabel, Function.comp_def, Relabeling.comp, Name.relabel]

theorem Field.relabel_relabel (f : Field) : (f.relabel ρ).relabel σ = f.relabel (σ.comp ρ) := by
  simp only [relabel, List.map_map, Option.map_map, Function.comp_def, Directive.relabel_relabel,
    InputValue.relabel_relabel]
  rfl

theorem EnumValue.relabel_relabel (v : EnumValue) :
    (v.relabel ρ).relabel σ = v.relabel (σ.comp ρ) := by
  simp only [relabel, List.map_map, Option.map_map, Function.comp_def, Directive.relabel_relabel]
  rfl

theorem Table.map_map {α β γ : Type} (g : β → γ) (f : α → β) (t : Table α) :
    (t.map f).map g = t.map (g ∘ f) := by
  apply ext
  simp [map, Function.comp_def]

theorem FieldSet.relabel_relabel (b : FieldSet) :
    (b.relabel ρ).relabel σ = b.relabel (σ.comp ρ) := by
  simp only [relabel, List.map_map, Table.map_map, Function.comp_def, Field.relabel_relabel]
  rfl

theorem TypeBody.relabel_relabel (b : TypeBody) :
    (b.relabel ρ).relabel σ = b.relabel (σ.comp ρ) := by
  cases b with
  | scalar => rfl
  | object b => exact congrArg object b.relabel_relabel
  | interface b => exact congrArg interface b.relabel_relabel
  | union rs => simp [relabel, Relabeling.comp]
  | enum vs => simp [relabel, EnumValue.relabel_relabel]
  | input fs =>
    simp only [relabel, Table.map_map, Function.comp_def, InputValue.relabel_relabel]
    rfl

theorem TypeDefinition.relabel_relabel (t : TypeDefinition) :
    (t.relabel ρ).relabel σ = t.relabel (σ.comp ρ) := by
  simp only [relabel, List.map_map, Option.map_map, Function.comp_def, Directive.relabel_relabel,
    TypeBody.relabel_relabel]
  rfl

theorem Schema.relabel_relabel (s : Schema) : (s.relabel ρ).relabel σ = s.relabel (σ.comp ρ) := by
  simp only [relabel, List.map_map, Option.map_map, Function.comp_def, Directive.relabel_relabel]
  rfl

theorem DirectiveDefinition.relabel_relabel (v : DirectiveDefinition) :
    (v.relabel ρ).relabel σ = v.relabel (σ.comp ρ) := by
  simp only [relabel, List.map_map, Option.map_map, Function.comp_def,
    InputValue.relabel_relabel]
  rfl

theorem Document.relabel_relabel (d : Document) :
    (d.relabel ρ).relabel σ = d.relabel (σ.comp ρ) := by
  simp only [relabel, Option.map_map, Table.map_map, Function.comp_def, Schema.relabel_relabel,
    DirectiveDefinition.relabel_relabel, TypeDefinition.relabel_relabel]

/-! ### Stripping -/

theorem TypeBody.reword_eq_relabel (w : Rewording) (b : TypeBody) :
    b.reword w.inner = b.relabel (.reword w) := by
  cases b <;> rfl

theorem TypeDefinition.reword_eq_relabel (w : Rewording) (t : TypeDefinition) :
    t.reword w = t.relabel (.reword w) := by
  rw [reword, relabel, TypeBody.reword_eq_relabel]
  rfl

theorem Definition.reword_eq_relabel (w : Rewording) (v : Definition) :
    v.reword w = v.relabel (.reword w) := by
  cases v with
  | schema s => rfl
  | directive v => rfl
  | type t => exact congrArg type (t.reword_eq_relabel w)

/-- Stripping a document of its places, and wording it anew, changes labels only. -/
theorem Document.reword_eq_relabel (w : Rewording) (d : Document) :
    d.reword w = d.relabel (.reword w) := by
  rw [reword, relabel, funext (TypeDefinition.reword_eq_relabel w)]
  rfl

theorem Document.plain_eq_relabel (d : Document) : d.plain = d.relabel .plain :=
  d.reword_eq_relabel .none

/-! ### References -/

theorem FieldSet.ref?_relabel (b : FieldSet) (p : TypePath) :
    (b.relabel ρ).ref? p = (b.ref? p).map ρ.ref := by
  cases p with
  | interface i => simp [relabel, ref?]
  | field i => simp [relabel, ref?, Field.relabel, Option.map_map, Function.comp_def]
  | argument i j =>
    simp only [relabel, ref?, Table.at?_map]
    cases b.fields.at? i with
    | none => rfl
    | some f => cases h : f.arguments[j]? <;> simp [Field.relabel, InputValue.relabel, h]
  | member i => rfl
  | inputField i => rfl

theorem TypeDefinition.ref?_relabel (t : TypeDefinition) (p : TypePath) :
    (t.relabel ρ).ref? p = (t.ref? p).map ρ.ref := by
  obtain ⟨description, name, directives, body⟩ := t
  cases body with
  | scalar => rfl
  | object b => exact b.ref?_relabel p
  | interface b => exact b.ref?_relabel p
  | union rs => cases p <;> simp [relabel, TypeBody.relabel, ref?]
  | enum vs => rfl
  | input fs =>
    cases p <;>
      simp [relabel, TypeBody.relabel, InputValue.relabel, ref?, Option.map_map, Function.comp_def]

/-- The references stand at the same paths. -/
theorem Document.ref?_relabel (d : Document) (p : RefPath) :
    (d.relabel ρ).ref? p = (d.ref? p).map ρ.ref := by
  cases p with
  | type slot p =>
    simp only [relabel, ref?, Table.at?_map]
    cases d.types.at? slot with
    | none => rfl
    | some t => exact t.ref?_relabel p
  | directiveArgument i j =>
    simp only [relabel, ref?, Table.at?_map]
    cases d.directives.at? i with
    | none => rfl
    | some v =>
      cases h : v.arguments[j]? <;> simp [DirectiveDefinition.relabel, InputValue.relabel, h]
  | rootOperation i =>
    simp only [relabel, ref?]
    cases d.schema with
    | none => rfl
    | some s => cases h : s.operations[i]? <;> simp [Schema.relabel, RootOperation.relabel, h]

theorem FieldSet.refs_relabel (b : FieldSet) :
    (b.relabel ρ).refs = b.refs.map fun e => (e.1, ρ.ref e.2) := by
  simp only [refs, relabel, Field.relabel, Table.values_map, List.zipIdx_map, List.map_append,
    List.map_map, List.flatMap_map, List.map_flatMap, List.map_cons, Prod.map_fst, Prod.map_snd]
  rfl

theorem TypeDefinition.refs_relabel (t : TypeDefinition) :
    (t.relabel ρ).refs = t.refs.map fun e => (e.1, ρ.ref e.2) := by
  obtain ⟨description, name, directives, body⟩ := t
  cases body with
  | scalar | enum vs => rfl
  | object b | interface b => exact b.refs_relabel
  | union rs =>
    simp only [refs, relabel, TypeBody.relabel, List.zipIdx_map, List.map_map]
    rfl
  | input fs =>
    simp only [refs, relabel, TypeBody.relabel, Table.values_map, List.zipIdx_map, List.map_map]
    rfl

/-- The references are listed in the same order. -/
theorem Document.refs_relabel (d : Document) :
    (d.relabel ρ).refs = d.refs.map fun e => (e.1, ρ.ref e.2) := by
  have hoperations : ((d.schema.map (Schema.relabel ρ)).map (·.operations)).getD [] =
      ((d.schema.map (·.operations)).getD []).map (RootOperation.relabel ρ) := by
    cases d.schema <;> rfl
  simp only [refs, relabel, hoperations, TypeDefinition.refs_relabel, DirectiveDefinition.relabel,
    Table.values_map, List.zipIdx_map, List.map_append, List.map_map, List.flatMap_map,
    List.map_flatMap, Prod.map_fst, Prod.map_snd]
  rfl

theorem Document.mentions_relabel {d : Document} {r : TypeRef} :
    (d.relabel ρ).Mentions r ↔ ∃ s, d.Mentions s ∧ ρ.ref s = r := by
  simp only [mentions_iff, ref?_relabel, Option.map_eq_some_iff]
  constructor
  · rintro ⟨p, s, hs, rfl⟩
    exact ⟨s, ⟨p, hs⟩, rfl⟩
  · rintro ⟨s, ⟨p, hs⟩, rfl⟩
    exact ⟨p, s, hs, rfl⟩

/-! ### Printing -/

@[simp] theorem TypeRef.pieces_relabel (r : TypeRef) : (ρ.ref r).pieces = r.pieces := by
  rw [pieces, ρ.name_ref, ρ.wrappers_ref, pieces]

@[simp] theorem TypeRef.name_relabel (r : TypeRef) : (ρ.ref r).name = r.name := ρ.name_ref r

@[simp] theorem TypeRef.wrappers_relabel (r : TypeRef) : (ρ.ref r).wrappers = r.wrappers :=
  ρ.wrappers_ref r

@[simp] theorem Directive.pieces_relabel (d : Directive) : (d.relabel ρ).pieces = d.pieces := by
  have ha : ∀ a : Argument, (a.relabel ρ).pieces = a.pieces := fun _ => rfl
  simp [pieces, relabel, Function.comp_def, ha]

@[simp] theorem InputValue.pieces_relabel (f : String → String) (v : InputValue) :
    (v.relabel ρ f).pieces = v.pieces := by
  simp [pieces, relabel, List.flatMap_map]

@[simp] theorem InputValue.argumentPieces_relabel (v : InputValue) :
    (v.relabel ρ id).argumentPieces = v.argumentPieces := by
  rw [argumentPieces, pieces_relabel, argumentPieces, relabel, Option.map_id, id]

section Printing

variable {indent : List Char} (hi : ρ.inner = id)
include hi

theorem InputValue.linePieces_relabel (v : InputValue) :
    (v.relabel ρ ρ.inner).linePieces indent = v.linePieces indent := by
  rw [linePieces, pieces_relabel, linePieces, relabel, hi, Option.map_id, id]

theorem Field.linePieces_relabel (f : Field) :
    (f.relabel ρ).linePieces indent = f.linePieces indent := by
  simp [linePieces, relabel, hi, List.flatMap_map, Function.comp_def]

theorem EnumValue.linePieces_relabel (v : EnumValue) :
    (v.relabel ρ).linePieces indent = v.linePieces indent := by
  simp [linePieces, relabel, hi, List.flatMap_map]

theorem FieldSet.linePieces_relabel (b : FieldSet) :
    (b.relabel ρ).fields.values.map (Field.linePieces indent) =
      b.fields.values.map (Field.linePieces indent) := by
  simp [relabel, Function.comp_def, Field.linePieces_relabel hi]

theorem TypeBody.pieces_relabel (b : TypeBody) :
    (b.relabel ρ).pieces indent = b.pieces indent := by
  cases b with
  | scalar => rfl
  | object b | interface b =>
    rw [relabel, pieces, FieldSet.linePieces_relabel hi, pieces]
    simp [FieldSet.relabel, interfacePieces, Function.comp_def]
  | union rs => simp [pieces, relabel, memberPieces, Function.comp_def]
  | enum vs => simp [pieces, relabel, Function.comp_def, EnumValue.linePieces_relabel hi]
  | input fs => simp [pieces, relabel, Function.comp_def, InputValue.linePieces_relabel hi]

end Printing

/-- A document with other places and bindings is printed alike. -/
theorem Document.print_relabel (hρ : ρ.toRewording = .none) (d : Document) (o : PrintOptions) :
    (d.relabel ρ).print o = d.print o := by
  have hi : ρ.inner = id := congrArg Rewording.inner hρ
  have ho : ρ.outer = id := congrArg Rewording.outer hρ
  have htype : ∀ t : TypeDefinition, (t.relabel ρ).pieces o.indent = t.pieces o.indent := by
    intro t
    simp [TypeDefinition.pieces, TypeDefinition.relabel, TypeDefinition.kind, ho,
      TypeBody.pieces_relabel hi, List.flatMap_map]
  have hoperation : ∀ op : RootOperation,
      (op.relabel ρ).linePieces o.indent = op.linePieces o.indent := by
    intro op
    simp [RootOperation.linePieces, RootOperation.relabel]
  have hschema : ∀ s : Schema, (s.relabel ρ).pieces o.indent = s.pieces o.indent := by
    intro s
    simp [Schema.pieces, Schema.relabel, ho, hoperation, List.flatMap_map, Function.comp_def]
  have hdirective : ∀ v : DirectiveDefinition, (v.relabel ρ).pieces = v.pieces := by
    intro v
    simp [DirectiveDefinition.pieces, DirectiveDefinition.relabel, ho, Function.comp_def]
  simp [print, pieces, relabel, Function.comp_def, htype, hschema, hdirective]

end SchemaLang
