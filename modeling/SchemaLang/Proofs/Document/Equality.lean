import Mathlib.Data.List.Perm.Subperm
import SchemaLang.Proofs.Document.Relabel

/-! What counts when documents are compared. For each part of a document there is a function that
leaves just that, so that two parts compare equal exactly if the function makes the same of them:
places and bindings are taken away, and names under which something is found are put in one order.
Documents that are the same without their places are equal, and other places and bindings make no
difference to whether two documents are equal. -/

namespace SchemaLang

/-! ### Lists and options -/

/-- Two values compare equal exactly if `f` makes the same of them. -/
def ComparedBy {α β : Type} [BEq α] (f : α → β) : Prop := ∀ a b, (a == b) = true ↔ f a = f b

namespace ComparedBy

variable {α β : Type} [BEq α] {f : α → β}

theorem equivalence (h : ComparedBy f) : Equivalence fun a b : α => (a == b) = true where
  refl a := (h a a).mpr rfl
  symm {a b} hab := (h b a).mpr ((h a b).mp hab).symm
  trans {a b c} hab hbc := (h a c).mpr (((h a b).mp hab).trans ((h b c).mp hbc))

theorem list (h : ComparedBy f) : ComparedBy (List.map f) := by
  intro as bs
  induction as generalizing bs with
  | nil => cases bs <;> simp
  | cons a as ih =>
    cases bs with
    | nil => simp
    | cons b bs => simp [h a b, ih bs]

theorem option (h : ComparedBy f) : ComparedBy (Option.map f) := by
  intro a b
  cases a with
  | none => cases b <;> simp
  | some a =>
    cases b with
    | none => simp
    | some b => simpa using h a b

end ComparedBy

/-! ### Tables -/

namespace Table

variable {α β : Type} {t u : Table α}

theorem nodup_entries (t : Table α) : t.entries.Nodup :=
  List.Pairwise.of_map Prod.fst (fun _ _ hne heq => hne (congrArg Prod.fst heq)) t.distinct

theorem get?_of_perm (h : t.entries.Perm u.entries) (k : String) : t.get? k = u.get? k :=
  Option.ext fun v => by rw [get?_eq_some_iff, get?_eq_some_iff, h.mem_iff]

/-- What is found under each name makes a table, up to the order of the names. -/
theorem perm_entries_iff : t.entries.Perm u.entries ↔ ∀ k, t.get? k = u.get? k := by
  refine ⟨get?_of_perm, fun h => ?_⟩
  refine (List.perm_ext_iff_of_nodup t.nodup_entries u.nodup_entries).mpr fun ⟨k, v⟩ => ?_
  rw [← get?_eq_some_iff, ← get?_eq_some_iff, h k]

/-- The same entries in the order of their names. -/
def sorted (t : Table α) : Table α :=
  ⟨t.entries.mergeSort fun e e' => e.1 ≤ e'.1,
    ((List.mergeSort_perm _ _).map Prod.fst).nodup_iff.mpr t.distinct⟩

theorem perm_sorted (t : Table α) : t.sorted.entries.Perm t.entries := List.mergeSort_perm _ _

@[simp] theorem get?_sorted (t : Table α) (k : String) : t.sorted.get? k = t.get? k :=
  get?_of_perm t.perm_sorted k

theorem pairwise_sorted (t : Table α) : t.sorted.entries.Pairwise fun e e' => e.1 ≤ e'.1 := by
  have h : t.sorted.entries.Pairwise fun e e' => decide (e.1 ≤ e'.1) = true := by
    refine List.pairwise_mergeSort (fun a b c hab hbc => ?_) (fun a b => ?_) t.entries
    · exact decide_eq_true (String.le_trans (of_decide_eq_true hab) (of_decide_eq_true hbc))
    · simpa using String.le_total a.1 b.1
  exact h.imp of_decide_eq_true

/-- In the order of their names, tables with the same entries are the same. -/
theorem sorted_eq_iff : t.sorted = u.sorted ↔ ∀ k, t.get? k = u.get? k := by
  constructor
  · intro h k
    rw [← get?_sorted, h, get?_sorted]
  · intro h
    have hperm : t.sorted.entries.Perm u.sorted.entries :=
      (t.perm_sorted.trans (perm_entries_iff.mpr h)).trans u.perm_sorted.symm
    refine ext (hperm.eq_of_pairwise ?_ t.pairwise_sorted u.pairwise_sorted)
    intro e e' he he' hle hge
    have hkey : e.1 = e'.1 := String.le_antisymm hle hge
    -- a name leads to one value only
    have hvalue : some e.2 = some e'.2 := by
      rw [← get?_eq_some_iff.mpr he, get?_of_perm hperm, hkey, get?_eq_some_iff.mpr he']
    exact Prod.ext hkey (Option.some.inj hvalue)

/-- A table with as many names as another one, all of them names of that one, has its names. -/
theorem perm_keys_of_subset (h : t.keys ⊆ u.keys) (hsize : t.size = u.size) :
    t.keys.Perm u.keys := by
  have hlength : u.keys.length ≤ t.keys.length := by
    simp only [keys, List.length_map]
    exact Nat.le_of_eq hsize.symm
  exact (t.distinct.subperm h).perm_of_length_le hlength

theorem perm_keys_of_get? {f : α → β} (h : ∀ k, (t.get? k).map f = (u.get? k).map f) :
    t.keys.Perm u.keys := by
  refine (List.perm_ext_iff_of_nodup t.distinct u.distinct).mpr fun k => ?_
  have hsome := congrArg Option.isSome (h k)
  rw [Option.isSome_map, Option.isSome_map] at hsome
  change k ∈ t.keys ↔ k ∈ u.keys
  rw [mem_keys_iff, mem_keys_iff, ← Option.isSome_iff_exists, ← Option.isSome_iff_exists, hsome]

variable [BEq α] {f : α → β}

/-- What is checked: the sizes, and one of the two inclusions. -/
theorem beq_iff_included (hf : ComparedBy f) :
    (t == u) = true ↔ t.size = u.size ∧
      ∀ k v, t.get? k = some v → ∃ w, u.get? k = some w ∧ f v = f w := by
  change agree _ _ _ = true ↔ _
  rw [agree, Bool.and_eq_true, beq_iff_eq, List.all_eq_true, Prod.forall]
  refine and_congr_right' (forall₂_congr fun k v => ?_)
  rw [get?_eq_some_iff]
  refine imp_congr_right fun _ => ?_
  cases u.get? k with
  | none => simp
  | some w => simp [hf v w]

/-- Tables compare equal exactly if what is found under each name does. -/
theorem beq_iff (hf : ComparedBy f) :
    (t == u) = true ↔ ∀ k, (t.get? k).map f = (u.get? k).map f := by
  rw [beq_iff_included hf]
  constructor
  · rintro ⟨hsize, hincl⟩ k
    -- names are distinct, so the other inclusion is a matter of counting
    have hkeys : t.keys.Perm u.keys := by
      refine perm_keys_of_subset (fun k hk => ?_) hsize
      obtain ⟨v, hv⟩ := mem_keys_iff.mp hk
      obtain ⟨w, hw, -⟩ := hincl k v hv
      exact mem_keys_iff.mpr ⟨w, hw⟩
    cases hv : t.get? k with
    | some v =>
      obtain ⟨w, hw, hvw⟩ := hincl k v hv
      rw [hw, Option.map_some, Option.map_some, hvw]
    | none =>
      rw [get?_eq_none_iff, hkeys.mem_iff, ← get?_eq_none_iff] at hv
      rw [hv]
  · intro h
    refine ⟨by simpa [keys, size] using (perm_keys_of_get? h).length_eq, fun k v hv => ?_⟩
    have hk := h k
    rw [hv, Option.map_some, eq_comm, Option.map_eq_some_iff] at hk
    obtain ⟨w, hw, hwv⟩ := hk
    exact ⟨w, hw, hwv.symm⟩

end Table

theorem ComparedBy.table {α β : Type} [BEq α] {f : α → β} (h : ComparedBy f) :
    ComparedBy fun t : Table α => (t.map f).sorted := by
  intro t u
  simp only [Table.sorted_eq_iff, Table.get?_map]
  exact Table.beq_iff h

/-! ### Values -/

mutual

theorem Value.beq_iff (v w : Value) : v.beq w = true ↔ v = w := by
  cases v with
  | list items => cases w <;> simp [Value.beq, Value.beqItems_iff items]
  | object entries => cases w <;> simp [Value.beq, Value.beqEntries_iff entries]
  | _ => cases w <;> simp [Value.beq]

theorem Value.beqItems_iff (vs ws : List Value) : Value.beqItems vs ws = true ↔ vs = ws := by
  cases vs with
  | nil => cases ws <;> simp [Value.beqItems]
  | cons v vs =>
    cases ws with
    | nil => simp [Value.beqItems]
    | cons w ws => simp [Value.beqItems, Value.beq_iff v w, Value.beqItems_iff vs ws]

theorem Value.beqEntries_iff (es fs : List (String × Value)) :
    Value.beqEntries es fs = true ↔ es = fs := by
  cases es with
  | nil => cases fs <;> simp [Value.beqEntries]
  | cons e es =>
    obtain ⟨k, v⟩ := e
    cases fs with
    | nil => simp [Value.beqEntries]
    | cons e' fs =>
      obtain ⟨l, w⟩ := e'
      simp [Value.beqEntries, Value.beq_iff v w, Value.beqEntries_iff es fs, and_assoc]

end

instance : LawfulBEq Value where
  eq_of_beq h := (Value.beq_iff _ _).mp h
  rfl := (Value.beq_iff _ _).mpr rfl

/-! ### Parts of definitions -/

namespace Relabeling

@[simp] theorem outer_bare : Relabeling.bare.outer = id := rfl

@[simp] theorem inner_bare : Relabeling.bare.inner = id := rfl

/-- Taking labels away leaves nothing of those that were put on before. -/
theorem bare_comp {ρ : Relabeling} (hi : ρ.inner = id) (ho : ρ.outer = id) :
    bare.comp ρ = bare := by
  obtain ⟨⟨outer, inner⟩, place, ref, hname, hwrappers⟩ := ρ
  obtain rfl : inner = id := hi
  obtain rfl : outer = id := ho
  have href : Relabeling.bare.ref ∘ ref = Relabeling.bare.ref := by
    funext r
    change TypeRef.mk (ref r).name (ref r).wrappers _ _ = _
    rw [hname, hwrappers]
    rfl
  simp only [comp, href, outer_bare, inner_bare, Function.comp_id]
  rfl

end Relabeling

theorem TypeRef.comparedBy : ComparedBy Relabeling.bare.ref := by
  intro r s
  change r.same s = true ↔
    TypeRef.mk r.name r.wrappers default none = TypeRef.mk s.name s.wrappers default none
  simp [same_iff]

theorem Name.comparedBy : ComparedBy (Name.relabel .bare) := by
  intro a b
  change (a.value == b.value) = true ↔ Name.mk a.value _ = Name.mk b.value _
  rw [beq_iff_eq, Name.mk.injEq]
  exact (and_iff_left rfl).symm

theorem Argument.comparedBy : ComparedBy (Argument.relabel .bare) := by
  intro a b
  change (a.name == b.name && a.value == b.value) = true ↔ _
  rw [Bool.and_eq_true, Name.comparedBy, beq_iff_eq, relabel, relabel, Argument.mk.injEq]

theorem Directive.comparedBy : ComparedBy (Directive.relabel .bare) := by
  intro d e
  change (d.name == e.name && d.arguments == e.arguments) = true ↔ _
  rw [Bool.and_eq_true, Name.comparedBy, Argument.comparedBy.list, relabel, relabel,
    Directive.mk.injEq]

theorem InputValue.comparedBy : ComparedBy (InputValue.relabel .bare id) := by
  intro v w
  change (v.description == w.description && v.name == w.name && v.type == w.type &&
    v.defaultValue == w.defaultValue && v.directives == w.directives) = true ↔ _
  simp only [Bool.and_eq_true, beq_iff_eq, Name.comparedBy _ _, TypeRef.comparedBy _ _,
    Directive.comparedBy.list _ _, relabel, Option.map_id, id, InputValue.mk.injEq, and_assoc]

theorem Field.comparedBy : ComparedBy (Field.relabel .bare) := by
  intro f g
  change (f.description == g.description && f.name == g.name && f.arguments == g.arguments &&
    f.type == g.type && f.directives == g.directives) = true ↔ _
  simp only [Bool.and_eq_true, beq_iff_eq, Name.comparedBy _ _, TypeRef.comparedBy _ _,
    InputValue.comparedBy.list _ _, Directive.comparedBy.list _ _, relabel, Relabeling.inner_bare,
    Option.map_id, id, Field.mk.injEq, and_assoc]

theorem EnumValue.comparedBy : ComparedBy (EnumValue.relabel .bare) := by
  intro v w
  change (v.description == w.description && v.name == w.name && v.directives == w.directives) =
    true ↔ _
  simp only [Bool.and_eq_true, beq_iff_eq, Name.comparedBy _ _, Directive.comparedBy.list _ _,
    relabel, Relabeling.inner_bare, Option.map_id, id, EnumValue.mk.injEq, and_assoc]

/-! ### Definitions -/

/-- The fields in the order of their names. -/
def FieldSet.sorted (b : FieldSet) : FieldSet := { b with fields := b.fields.sorted }

/-- Fields and input fields in the order of their names. -/
def TypeBody.sorted : TypeBody → TypeBody
  | scalar => scalar
  | object b => object b.sorted
  | interface b => interface b.sorted
  | union rs => union rs
  | enum vs => enum vs
  | input fs => input fs.sorted

def TypeDefinition.sorted (t : TypeDefinition) : TypeDefinition := { t with body := t.body.sorted }

theorem FieldSet.comparedBy : ComparedBy fun b : FieldSet => (b.relabel .bare).sorted := by
  intro a b
  change (a.interfaces == b.interfaces && a.fields == b.fields) = true ↔ _
  simp only [Bool.and_eq_true, TypeRef.comparedBy.list _ _, Field.comparedBy.table _ _, sorted,
    relabel, FieldSet.mk.injEq]

theorem TypeBody.comparedBy : ComparedBy fun b : TypeBody => (b.relabel .bare).sorted := by
  intro a b
  change a.beq b = true ↔ _
  cases a <;> cases b <;> simp only [beq, relabel, sorted, reduceCtorEq, TypeBody.object.injEq,
    TypeBody.interface.injEq, TypeBody.union.injEq, TypeBody.enum.injEq, TypeBody.input.injEq,
    FieldSet.comparedBy _ _, TypeRef.comparedBy.list _ _, EnumValue.comparedBy.list _ _,
    Relabeling.inner_bare, InputValue.comparedBy.table _ _]

theorem TypeDefinition.comparedBy :
    ComparedBy fun t : TypeDefinition => (t.relabel .bare).sorted := by
  intro t u
  change (t.description == u.description && t.name == u.name && t.directives == u.directives &&
    t.body == u.body) = true ↔ _
  simp only [Bool.and_eq_true, beq_iff_eq, Name.comparedBy _ _, Directive.comparedBy.list _ _,
    TypeBody.comparedBy _ _, sorted, relabel, Relabeling.outer_bare, Option.map_id, id,
    TypeDefinition.mk.injEq, and_assoc]

theorem RootOperation.comparedBy : ComparedBy (RootOperation.relabel .bare) := by
  intro a b
  change (a.kind == b.kind && a.type == b.type) = true ↔ _
  rw [Bool.and_eq_true, beq_iff_eq, TypeRef.comparedBy, relabel, relabel, RootOperation.mk.injEq]

theorem Schema.comparedBy : ComparedBy (Schema.relabel .bare) := by
  intro s t
  change (s.description == t.description && s.directives == t.directives &&
    s.operations == t.operations) = true ↔ _
  simp only [Bool.and_eq_true, beq_iff_eq, Directive.comparedBy.list _ _,
    RootOperation.comparedBy.list _ _, relabel, Relabeling.outer_bare, Option.map_id, id,
    Schema.mk.injEq, and_assoc]

theorem DirectiveDefinition.comparedBy : ComparedBy (DirectiveDefinition.relabel .bare) := by
  intro v w
  change (v.description == w.description && v.name == w.name && v.arguments == w.arguments &&
    v.repeatable == w.repeatable && v.locations == w.locations) = true ↔ _
  simp only [Bool.and_eq_true, beq_iff_eq, Name.comparedBy _ _, InputValue.comparedBy.list _ _,
    relabel, Relabeling.outer_bare, Option.map_id, id, DirectiveDefinition.mk.injEq, and_assoc]

/-! ### Documents -/

namespace Document

/-- Types, directive definitions, fields and input fields in the order of their names. -/
def sorted (d : Document) : Document where
  name := d.name
  schema := d.schema
  directives := d.directives.sorted
  types := (d.types.map TypeDefinition.sorted).sorted

/-- What a document says: its name, its places and its bindings are taken away, and what is found
by name is put in the order of the names. -/
def normal (d : Document) : Document := { (d.relabel .bare).sorted with name := "" }

variable {d e : Document}

/-- A normal form shows what is found under each name, and nothing else. -/
theorem normal_eq_iff : d.normal = e.normal ↔
    d.schema.map (Schema.relabel .bare) = e.schema.map (Schema.relabel .bare) ∧
    (∀ n, (d.directives.get? n).map (DirectiveDefinition.relabel .bare) =
      (e.directives.get? n).map (DirectiveDefinition.relabel .bare)) ∧
    ∀ n, (d.get? n).map (fun t => (t.relabel .bare).sorted) =
      (e.get? n).map fun t => (t.relabel .bare).sorted := by
  simp only [normal, sorted, relabel, Table.map_map, Document.mk.injEq, Table.sorted_eq_iff,
    Table.get?_map, true_and]
  rfl

/-- Documents are equal exactly if they have the same normal form. -/
theorem comparedBy_normal : ComparedBy normal := by
  intro d e
  change (d.schema == e.schema && d.directives == e.directives && d.types == e.types) = true ↔ _
  rw [Bool.and_eq_true, Bool.and_eq_true, Schema.comparedBy.option,
    Table.beq_iff DirectiveDefinition.comparedBy, Table.beq_iff TypeDefinition.comparedBy,
    normal_eq_iff, and_assoc]
  rfl

/-- Documents that say the same are equal, wherever they stand and whatever they are bound to. -/
theorem beq_of_bare (h : d.relabel .bare = e.relabel .bare) : (d == e) = true :=
  (comparedBy_normal d e).mpr (congrArg (fun d => { d.sorted with name := "" }) h)

/-- Documents that are the same without their places are equal. -/
theorem beq_of_plain (h : d.plain = e.plain) : (d == e) = true := by
  rw [plain_eq_relabel, plain_eq_relabel] at h
  have hunbind := congrArg (relabel .unbind) h
  rw [relabel_relabel, relabel_relabel] at hunbind
  exact beq_of_bare hunbind

/-- Whether documents are equal does not depend on their places and bindings. -/
theorem beq_relabel {ρ : Relabeling} (hi : ρ.inner = id) (ho : ρ.outer = id) (d e : Document) :
    (d.relabel ρ == e.relabel ρ) = (d == e) := by
  have hnormal : ∀ d : Document, (d.relabel ρ).normal = d.normal := by
    intro d
    rw [normal, relabel_relabel, Relabeling.bare_comp hi ho]
    rfl
  rw [Bool.eq_iff_iff, comparedBy_normal _ _, comparedBy_normal _ _, hnormal, hnormal]

end Document

end SchemaLang
