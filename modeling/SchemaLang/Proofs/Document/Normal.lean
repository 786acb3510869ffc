import SchemaLang.Proofs.Document.Contents
import SchemaLang.Proofs.Document.Rearranged

/-! Equality of documents as a relation. It is an equivalence, for it compares normal forms. The
order of types, directive definitions, fields and input fields does not count. Every other order
does: what equal documents have under the same keys are the same lists, with the same items in the
same places. -/

namespace SchemaLang

/-! ### Order that counts -/

/-- The input fields under their names. -/
def TypeBody.inputTable? : TypeBody → Option (Table InputValue)
  | input fs => some fs
  | scalar | object _ | interface _ | union _ | enum _ => none

namespace Document

/-- The field of that name in the type of that name. -/
def field? (d : Document) (type field : String) : Option Field :=
  ((d.get? type).bind (·.fields?)).bind (·.get? field)

def inputField? (d : Document) (type field : String) : Option InputValue :=
  ((d.get? type).bind (·.body.inputTable?)).bind (·.get? field)

/-- What is found under the same keys has the same items in the same order, but for places and
bindings: interfaces with their wrappers, members, enum values and directives of types; arguments,
wrappers, default values and directives of fields and input fields; arguments of directive
definitions; directives and operations of schemas. The items and entries of a value stay as they
are. -/
structure SameOrder (d e : Document) : Prop where
  interfaces : ∀ n, (d.get? n).map (·.interfaces.map Relabeling.bare.ref) =
    (e.get? n).map (·.interfaces.map Relabeling.bare.ref)
  members : ∀ n, (d.get? n).map (·.body.members.map Relabeling.bare.ref) =
    (e.get? n).map (·.body.members.map Relabeling.bare.ref)
  enumValues : ∀ n, (d.get? n).map (·.body.enumValues.map (EnumValue.relabel .bare)) =
    (e.get? n).map (·.body.enumValues.map (EnumValue.relabel .bare))
  applied : ∀ n, (d.get? n).map (·.directives.map (Directive.relabel .bare)) =
    (e.get? n).map (·.directives.map (Directive.relabel .bare))
  fields : ∀ n m, (d.field? n m).map (Field.relabel .bare) =
    (e.field? n m).map (Field.relabel .bare)
  inputFields : ∀ n m, (d.inputField? n m).map (InputValue.relabel .bare id) =
    (e.inputField? n m).map (InputValue.relabel .bare id)
  directives : ∀ n, (d.directives.get? n).map (DirectiveDefinition.relabel .bare) =
    (e.directives.get? n).map (DirectiveDefinition.relabel .bare)
  schema : d.schema.map (Schema.relabel .bare) = e.schema.map (Schema.relabel .bare)

theorem get?_normal (d : Document) (n : String) :
    d.normal.get? n = (d.get? n).map fun t => (t.relabel .bare).sorted := by
  change ((d.relabel .bare).types.map TypeDefinition.sorted).sorted.get? n = _
  rw [Table.get?_sorted, Table.get?_map, types_relabel, Table.get?_map, Option.map_map]
  rfl

end Document

namespace TypeDefinition

variable (t : TypeDefinition)

@[simp] theorem interfaces_sorted : t.sorted.interfaces = t.interfaces := by
  rw [interfaces, interfaces, sorted]
  cases t.body <;> rfl

@[simp] theorem members_sorted : t.sorted.body.members = t.body.members := by
  rw [sorted]
  cases t.body <;> rfl

@[simp] theorem enumValues_sorted : t.sorted.body.enumValues = t.body.enumValues := by
  rw [sorted]
  cases t.body <;> rfl

@[simp] theorem fields?_sorted : t.sorted.fields? = t.fields?.map Table.sorted := by
  rw [fields?, fields?, sorted]
  cases t.body <;> rfl

@[simp] theorem inputTable?_sorted :
    t.sorted.body.inputTable? = t.body.inputTable?.map Table.sorted := by
  rw [sorted]
  cases t.body <;> rfl

end TypeDefinition

namespace TypeBody

variable (b : TypeBody) (ρ : Relabeling)

@[simp] theorem members_relabel : (b.relabel ρ).members = b.members.map ρ.ref := by
  cases b <;> rfl

@[simp] theorem enumValues_relabel :
    (b.relabel ρ).enumValues = b.enumValues.map (EnumValue.relabel ρ) := by
  cases b <;> rfl

@[simp] theorem inputTable?_relabel :
    (b.relabel ρ).inputTable? = b.inputTable?.map (Table.map (InputValue.relabel ρ ρ.inner)) := by
  cases b <;> rfl

end TypeBody

namespace Document

variable {d e : Document}

theorem field?_normal (d : Document) (n m : String) :
    d.normal.field? n m = (d.field? n m).map (Field.relabel .bare) := by
  rw [field?, field?, get?_normal]
  cases d.get? n with
  | none => rfl
  | some t => cases h : t.fields? <;> simp [h, Table.get?_map]

theorem inputField?_normal (d : Document) (n m : String) :
    d.normal.inputField? n m = (d.inputField? n m).map (InputValue.relabel .bare id) := by
  rw [inputField?, inputField?, get?_normal]
  cases d.get? n with
  | none => rfl
  | some t => cases h : t.body.inputTable? <;> simp [h, Table.get?_map]

theorem sameOrder_of_normal_eq (h : d.normal = e.normal) : d.SameOrder e := by
  obtain ⟨hschema, hdirectives, htypes⟩ := normal_eq_iff.mp h
  have htype : ∀ {α : Type} (f : TypeDefinition → α) (n : String),
      (d.get? n).map (fun t => f (t.relabel .bare).sorted) =
        (e.get? n).map fun t => f (t.relabel .bare).sorted := by
    intro α f n
    simpa only [Option.map_map, Function.comp_def] using congrArg (Option.map f) (htypes n)
  refine ⟨fun n => ?_, fun n => ?_, fun n => ?_, fun n => ?_, fun n m => ?_, fun n m => ?_,
    hdirectives, hschema⟩
  · simpa using htype (·.interfaces) n
  · simpa using htype (·.body.members) n
  · simpa using htype (·.body.enumValues) n
  · exact htype (·.directives) n
  · rw [← field?_normal, h, field?_normal]
  · rw [← inputField?_normal, h, inputField?_normal]

/-- Equality of documents is an equivalence. Documents are equal exactly if their normal forms are
the same, so the order of types, directive definitions, fields and input fields does not count,
and any other order does. -/
theorem beq_normal :
    (Equivalence fun d e : Document => (d == e) = true) ∧
    ∀ d e : Document,
      ((d == e) = true ↔ d.normal = e.normal) ∧
      (d.Shuffled e → (d == e) = true) ∧
      ((d == e) = true → d.SameOrder e) := by
  refine ⟨comparedBy_normal.equivalence, fun d e => ⟨comparedBy_normal d e, fun h => ?_,
    fun h => ?_⟩⟩
  · exact (comparedBy_normal d e).mpr h.normal_eq
  · exact sameOrder_of_normal_eq ((comparedBy_normal d e).mp h)

/-- Neither the order of the types nor that of the fields of `A` makes a difference, the order of
its interfaces does. -/
theorem beq_normal_swapped :
    let ref (n : String) : TypeRef := .named n default
    let field (n : String) (r : TypeRef) : String × Field := (n, ⟨none, ⟨n, default⟩, [], r, []⟩)
    let type (n : String) (b : TypeBody) : TypeDefinition := ⟨none, ⟨n, default⟩, [], b⟩
    let doc (types : Table TypeDefinition) : Document := ⟨"", none, ∅, types⟩
    let x := field "x" ((ref "Int").wrap .list)
    let y := field "y" (ref "U")
    let u := type "U" (.union [ref "A"])
    let a₁ := type "A" (.object ⟨[ref "I", ref "J"], ⟨[x, y], by decide⟩⟩)
    let a₂ := type "A" (.object ⟨[ref "I", ref "J"], ⟨[y, x], by decide⟩⟩)
    let a₃ := type "A" (.object ⟨[ref "J", ref "I"], ⟨[x, y], by decide⟩⟩)
    let d := doc ⟨[("A", a₁), ("U", u)], by decide⟩
    let e := doc ⟨[("U", u), ("A", a₂)], by decide⟩
    let f := doc ⟨[("A", a₃), ("U", u)], by decide⟩
    (d.Shuffled e ∧ (d == e) = true ∧ d.normal = e.normal ∧ d.SameOrder e) ∧
      ¬ d.SameOrder f ∧ (d == f) = false := by
  intro ref field type doc x y u a₁ a₂ a₃ d e f
  have ha : a₁.Shuffled a₂ := ⟨.object rfl (.swap y x []), rfl⟩
  have hu : u.Shuffled u := ⟨.same _, rfl⟩
  have htypes : ∀ n, Option.Rel TypeDefinition.Shuffled (d.get? n) (e.get? n) := by
    intro n
    by_cases hA : n = "A"
    · subst hA
      exact .some ha
    · by_cases hU : n = "U"
      · subst hU
        exact .some hu
      · have hnone : ∀ t : Table TypeDefinition, t.keys ⊆ ["A", "U"] → t.get? n = none :=
          fun t ht => Table.get?_eq_none_iff.mpr fun hn => by simpa [hA, hU] using ht hn
        change Option.Rel _ (d.types.get? n) (e.types.get? n)
        rw [hnone d.types (by decide), hnone e.types (by decide)]
        exact .none
  have hshuffled : d.Shuffled e := ⟨rfl, .refl _, htypes⟩
  obtain ⟨hiff, hshuffle, horder⟩ := beq_normal.2 d e
  have hbeq := hshuffle hshuffled
  have hf : ¬ d.SameOrder f := by
    intro h
    have hnames : some ["I", "J"] = some ["J", "I"] :=
      congrArg (Option.map (List.map TypeRef.name)) (h.interfaces "A")
    exact absurd hnames (by decide)
  refine ⟨⟨hshuffled, hbeq, hiff.mp hbeq, horder hbeq⟩, hf, ?_⟩
  exact (Bool.not_eq_true _).mp fun h => hf ((beq_normal.2 d f).2.2 h)

end Document

end SchemaLang
