import SchemaLang.Proofs.Document.WellFormed
import SchemaLang.Proofs.References

/-! Names and references that stand in a text where their words do. A document that was read from
a text keeps for each name, and for each reference to a type, the place of the word that it was
read from. -/

namespace SchemaLang

variable {words : List Token}

/-! ### Parts of definitions -/

/-- A name stands at `l`: it is the text of a word there that may be a name. -/
def Anchored (words : List Token) (name : String) (l : Location) : Prop :=
  ∃ t ∈ words, t.kind.isName = true ∧ t.text = name ∧ t.location = l

theorem Anchored.mono {words' : List Token} {name : String} {l : Location}
    (h : Anchored words name l) (hsub : words ⊆ words') :
    Anchored words' name l := by
  obtain ⟨t, ht, hrest⟩ := h
  exact ⟨t, hsub ht, hrest⟩

def Name.Anchored (words : List Token) (n : Name) : Prop :=
  SchemaLang.Anchored words n.value n.location

def TypeRef.Anchored (words : List Token) (r : TypeRef) : Prop :=
  SchemaLang.Anchored words r.name r.location

structure InputValue.Anchored (words : List Token) (v : InputValue) : Prop where
  name : v.name.Anchored words
  type : v.type.Anchored words

structure Field.Anchored (words : List Token) (f : Field) : Prop where
  name : f.name.Anchored words
  arguments : ∀ a ∈ f.arguments, a.Anchored words
  type : f.type.Anchored words

structure FieldSet.Anchored (words : List Token) (b : FieldSet) : Prop where
  interfaces : ∀ r ∈ b.interfaces, r.Anchored words
  fields : ∀ f ∈ b.fields.values, f.Anchored words

/-! ### Definitions -/

def TypeBody.Anchored (words : List Token) : TypeBody → Prop
  | scalar | enum _ => True
  | object b | interface b => b.Anchored words
  | union rs => ∀ r ∈ rs, r.Anchored words
  | input fs => ∀ v ∈ fs.values, v.Anchored words

structure TypeDefinition.Anchored (words : List Token) (t : TypeDefinition) : Prop where
  name : t.name.Anchored words
  body : t.body.Anchored words

def Schema.Anchored (words : List Token) (s : Schema) : Prop :=
  ∀ op ∈ s.operations, op.type.Anchored words

def DirectiveDefinition.Anchored (words : List Token) (v : DirectiveDefinition) : Prop :=
  ∀ a ∈ v.arguments, a.Anchored words

def Definition.Anchored (words : List Token) : Definition → Prop
  | schema s => s.Anchored words
  | directive v => v.Anchored words
  | type t => t.Anchored words

/-! ### Documents -/

structure Document.Anchored (words : List Token) (d : Document) : Prop where
  schema : ∀ s ∈ d.schema, s.Anchored words
  directives : ∀ v ∈ d.directives.values, v.Anchored words
  types : ∀ t ∈ d.types.values, t.Anchored words

namespace Document

theorem Anchored.empty (name : String) : (empty name).Anchored words := ⟨nofun, nofun, nofun⟩

theorem Anchored.define {d : Document} (h : d.Anchored words) {v : Definition}
    (hv : v.Anchored words) : (d.define v).Anchored words := by
  cases v with
  | schema s => exact ⟨fun s' hs => Option.some.inj hs ▸ hv, h.directives, h.types⟩
  | directive v =>
    refine ⟨h.schema, fun w hw => ?_, h.types⟩
    rcases Table.mem_values_insert hw with rfl | hw
    · exact hv
    · exact h.directives w hw
  | type t =>
    refine ⟨h.schema, h.directives, fun u hu => ?_⟩
    rcases Table.mem_values_insert hu with rfl | hu
    · exact hv
    · exact h.types u hu

theorem Anchored.foldl_define {d : Document} (h : d.Anchored words) {vs : List Definition}
    (hvs : ∀ v ∈ vs, v.Anchored words) : (vs.foldl Document.define d).Anchored words :=
  List.foldlRecOn vs _ h fun _ hd v hv => hd.define (hvs v hv)

theorem Anchored.fieldSet {d : Document} (h : d.Anchored words) {t : TypeDefinition}
    {b : FieldSet} (ht : t ∈ d.types.values) (hb : t.body.fieldSet? = some b) :
    b.Anchored words := by
  obtain ⟨description, name, directives, body⟩ := t
  have hbody := (h.types _ ht).body
  cases body <;> cases hb <;> exact hbody

/-- The references of the document stand where their names do. -/
theorem Anchored.of_mentions {d : Document} (h : d.Anchored words) {r : TypeRef}
    (hr : d.Mentions r) : r.Anchored words := by
  cases hr with
  | implemented ht hb hr => exact (h.fieldSet ht hb).interfaces r hr
  | field ht hb hf => exact ((h.fieldSet ht hb).fields _ hf).type
  | argument ht hb hf ha => exact (((h.fieldSet ht hb).fields _ hf).arguments _ ha).type
  | member ht hb hr =>
    have hbody := (h.types _ ht).body
    rw [hb] at hbody
    exact hbody r hr
  | inputField ht hb hv =>
    have hbody := (h.types _ ht).body
    rw [hb] at hbody
    exact (hbody _ hv).type
  | directiveArgument hv ha => exact (h.directives _ hv _ ha).type
  | rootOperation hs hop => exact h.schema _ hs _ hop

end Document

end SchemaLang
