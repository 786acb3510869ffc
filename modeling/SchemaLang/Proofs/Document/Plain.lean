import SchemaLang.Document.Equality
import SchemaLang.Document.Printer
import SchemaLang.Proofs.Table

/-! Documents without their places. A document is stripped of its places and, on the way, its
descriptions outside of argument lists may be worded anew. Stripped documents show the order
of everything; documents that are the same once stripped are equal and are printed alike. -/

namespace SchemaLang

/-! ### Stripping -/

/-- How descriptions are worded anew: those of statements, and those of fields, input fields and
enum values. Descriptions of arguments stay. -/
structure Rewording where
  outer : String → String
  inner : String → String

/-- Every description stays. -/
def Rewording.none : Rewording := ⟨id, id⟩

def Name.plain (n : Name) : Name := { n with location := default }

def TypeRef.plain (r : TypeRef) : TypeRef := { r with location := default }

def Argument.plain (a : Argument) : Argument := { a with name := a.name.plain }

def Directive.plain (d : Directive) : Directive where
  name := d.name.plain
  arguments := d.arguments.map Argument.plain

/-- An argument or input field with its description worded by `f`. -/
def InputValue.reword (f : String → String) (v : InputValue) : InputValue where
  description := v.description.map f
  name := v.name.plain
  type := v.type.plain
  defaultValue := v.defaultValue
  directives := v.directives.map Directive.plain

def InputValue.plain (v : InputValue) : InputValue := v.reword id

def Field.reword (f : String → String) (fd : Field) : Field where
  description := fd.description.map f
  name := fd.name.plain
  arguments := fd.arguments.map InputValue.plain
  type := fd.type.plain
  directives := fd.directives.map Directive.plain

def EnumValue.reword (f : String → String) (v : EnumValue) : EnumValue where
  description := v.description.map f
  name := v.name.plain
  directives := v.directives.map Directive.plain

def FieldSet.reword (f : String → String) (b : FieldSet) : FieldSet where
  interfaces := b.interfaces.map TypeRef.plain
  fields := b.fields.map (Field.reword f)

def TypeBody.reword (f : String → String) : TypeBody → TypeBody
  | scalar => scalar
  | object b => object (b.reword f)
  | interface b => interface (b.reword f)
  | union rs => union (rs.map TypeRef.plain)
  | enum vs => enum (vs.map (EnumValue.reword f))
  | input fs => input (fs.map (InputValue.reword f))

def TypeDefinition.reword (w : Rewording) (t : TypeDefinition) : TypeDefinition where
  description := t.description.map w.outer
  name := t.name.plain
  directives := t.directives.map Directive.plain
  body := t.body.reword w.inner

def RootOperation.plain (op : RootOperation) : RootOperation := { op with type := op.type.plain }

def Schema.reword (w : Rewording) (s : Schema) : Schema where
  description := s.description.map w.outer
  directives := s.directives.map Directive.plain
  operations := s.operations.map RootOperation.plain

def DirectiveDefinition.reword (w : Rewording) (v : DirectiveDefinition) :
    DirectiveDefinition where
  description := v.description.map w.outer
  name := v.name.plain
  arguments := v.arguments.map InputValue.plain
  repeatable := v.repeatable
  locations := v.locations

def Definition.reword (w : Rewording) : Definition → Definition
  | schema s => schema (s.reword w)
  | directive v => directive (v.reword w)
  | type t => type (t.reword w)

/-- A document without its places, its descriptions outside of argument lists worded anew. -/
def Document.reword (w : Rewording) (d : Document) : Document where
  name := d.name
  schema := d.schema.map (Schema.reword w)
  directives := d.directives.map (DirectiveDefinition.reword w)
  types := d.types.map (TypeDefinition.reword w)

/-- A document without its places. -/
def Document.plain (d : Document) : Document := d.reword .none

@[simp] theorem Name.value_plain (n : Name) : n.plain.value = n.value := rfl

/-! ### Descriptions outside of argument lists -/

def TypeBody.descriptions : TypeBody → List String
  | object b | interface b => b.fields.values.filterMap (·.description)
  | enum vs => vs.filterMap (·.description)
  | input fs => fs.values.filterMap (·.description)
  | scalar | union _ => []

/-- The descriptions of a document, those of arguments left out. -/
def Document.descriptions (d : Document) : List String :=
  (d.schema.bind (·.description)).toList ++ d.directives.values.filterMap (·.description) ++
    d.types.values.flatMap fun t => t.description.toList ++ t.body.descriptions

theorem TypeBody.reword_congr {f g : String → String} {b : TypeBody}
    (h : ∀ s ∈ b.descriptions, f s = g s) : b.reword f = b.reword g := by
  have hoption {o : Option String} (ho : ∀ s ∈ o, f s = g s) : o.map f = o.map g :=
    Option.map_congr ho
  have hfields {fs : Table Field} (hfs : ∀ s ∈ fs.values.filterMap (·.description), f s = g s) :
      fs.map (Field.reword f) = fs.map (Field.reword g) := by
    refine Table.ext (List.map_congr_left fun e he => ?_)
    have hd : e.2.description.map f = e.2.description.map g := hoption fun s hs =>
      hfs s (List.mem_filterMap.mpr ⟨e.2, List.mem_map_of_mem he, hs⟩)
    rw [Field.reword, Field.reword, hd]
  cases b with
  | scalar => rfl
  | object b => rw [reword, reword, FieldSet.reword, FieldSet.reword, hfields h]
  | interface b => rw [reword, reword, FieldSet.reword, FieldSet.reword, hfields h]
  | union rs => rfl
  | enum vs =>
    refine congrArg enum (List.map_congr_left fun v hv => ?_)
    have hd : v.description.map f = v.description.map g := hoption fun s hs =>
      h s (List.mem_filterMap.mpr ⟨v, hv, hs⟩)
    rw [EnumValue.reword, EnumValue.reword, hd]
  | input fs =>
    refine congrArg input (Table.ext (List.map_congr_left fun e he => ?_))
    have hd : e.2.description.map f = e.2.description.map g := hoption fun s hs =>
      h s (List.mem_filterMap.mpr ⟨e.2, List.mem_map_of_mem he, hs⟩)
    rw [InputValue.reword, InputValue.reword, hd]

/-- Only what is made of the descriptions that a document has counts. -/
theorem Document.reword_congr {v w : Rewording} {d : Document}
    (h : ∀ s ∈ d.descriptions, v.outer s = w.outer s ∧ v.inner s = w.inner s) :
    d.reword v = d.reword w := by
  simp only [descriptions, List.mem_append, List.mem_flatMap, List.mem_filterMap,
    Option.mem_toList, Option.bind_eq_some_iff] at h
  have hschema : d.schema.map (Schema.reword v) = d.schema.map (Schema.reword w) := by
    refine Option.map_congr fun s hs => ?_
    have hd : s.description.map v.outer = s.description.map w.outer :=
      Option.map_congr fun x hx => (h x (.inl (.inl ⟨s, hs, hx⟩))).1
    rw [Schema.reword, Schema.reword, hd]
  have hdirectives : d.directives.map (DirectiveDefinition.reword v) =
      d.directives.map (DirectiveDefinition.reword w) := by
    refine Table.ext (List.map_congr_left fun e he => ?_)
    have hd : e.2.description.map v.outer = e.2.description.map w.outer :=
      Option.map_congr fun x hx => (h x (.inl (.inr ⟨e.2, List.mem_map_of_mem he, hx⟩))).1
    rw [DirectiveDefinition.reword, DirectiveDefinition.reword, hd]
  have htypes : d.types.map (TypeDefinition.reword v) = d.types.map (TypeDefinition.reword w) := by
    refine Table.ext (List.map_congr_left fun e he => ?_)
    have hd : e.2.description.map v.outer = e.2.description.map w.outer :=
      Option.map_congr fun x hx => (h x (.inr ⟨e.2, List.mem_map_of_mem he, .inl hx⟩)).1
    have hb : e.2.body.reword v.inner = e.2.body.reword w.inner := TypeBody.reword_congr
      fun x hx => (h x (.inr ⟨e.2, List.mem_map_of_mem he, .inr hx⟩)).2
    rw [TypeDefinition.reword, TypeDefinition.reword, hd, hb]
  rw [reword, reword, hschema, hdirectives, htypes]

/-! ### Printing -/

@[simp] theorem TypeRef.pieces_plain (r : TypeRef) : r.plain.pieces = r.pieces := rfl

@[simp] theorem TypeRef.name_plain (r : TypeRef) : r.plain.name = r.name := rfl

@[simp] theorem Argument.pieces_plain (a : Argument) : a.plain.pieces = a.pieces := rfl

@[simp] theorem Directive.pieces_plain (d : Directive) : d.plain.pieces = d.pieces := by
  simp [Directive.pieces, plain, Function.comp_def]

@[simp] theorem InputValue.pieces_reword (f : String → String) (v : InputValue) :
    (v.reword f).pieces = v.pieces := by
  simp [InputValue.pieces, reword, List.flatMap_map]

@[simp] theorem InputValue.argumentPieces_plain (v : InputValue) :
    v.plain.argumentPieces = v.argumentPieces := by
  rw [argumentPieces, plain, pieces_reword, argumentPieces, reword, Option.map_id, id]

@[simp] theorem InputValue.linePieces_reword_id (indent : List Char) (v : InputValue) :
    (v.reword id).linePieces indent = v.linePieces indent := by
  rw [linePieces, pieces_reword, linePieces, reword, Option.map_id, id]

@[simp] theorem Field.linePieces_reword_id (indent : List Char) (f : Field) :
    (f.reword id).linePieces indent = f.linePieces indent := by
  simp [linePieces, reword, List.flatMap_map, Function.comp_def]

@[simp] theorem EnumValue.linePieces_reword_id (indent : List Char) (v : EnumValue) :
    (v.reword id).linePieces indent = v.linePieces indent := by
  simp [linePieces, reword, List.flatMap_map]

@[simp] theorem TypeBody.pieces_reword_id (indent : List Char) (b : TypeBody) :
    (b.reword id).pieces indent = b.pieces indent := by
  cases b with
  | scalar => rfl
  | object b => simp [pieces, reword, FieldSet.reword, interfacePieces, Function.comp_def]
  | interface b => simp [pieces, reword, FieldSet.reword, interfacePieces, Function.comp_def]
  | union rs => simp [pieces, reword, memberPieces, Function.comp_def]
  | enum vs => simp [pieces, reword, Function.comp_def]
  | input fs => simp [pieces, reword, Function.comp_def]

@[simp] theorem TypeBody.kind_reword (f : String → String) (b : TypeBody) :
    (b.reword f).kind = b.kind := by cases b <;> rfl

@[simp] theorem TypeDefinition.pieces_plain (indent : List Char) (t : TypeDefinition) :
    (t.reword .none).pieces indent = t.pieces indent := by
  simp [pieces, reword, Rewording.none, kind, List.flatMap_map]

@[simp] theorem Schema.pieces_plain (indent : List Char) (s : Schema) :
    (s.reword .none).pieces indent = s.pieces indent := by
  have hop : ∀ op : RootOperation, op.plain.linePieces indent = op.linePieces indent := fun _ => rfl
  simp [pieces, reword, Rewording.none, List.flatMap_map, Function.comp_def, hop]

@[simp] theorem DirectiveDefinition.pieces_plain (v : DirectiveDefinition) :
    (v.reword .none).pieces = v.pieces := by
  simp [pieces, reword, Rewording.none, Function.comp_def]

theorem Document.print_plain (d : Document) (o : PrintOptions) : d.plain.print o = d.print o := by
  simp [print, pieces, plain, reword, Function.comp_def]

theorem Document.print_eq_of_plain {d e : Document} (h : d.plain = e.plain) (o : PrintOptions) :
    d.print o = e.print o := by
  rw [← d.print_plain, h, e.print_plain]

end SchemaLang
