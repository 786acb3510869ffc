import Mathlib.Data.List.Induction
import SchemaLang.Proofs.Document.Definitions

/-! One document put behind another one. The names of the first keep their slots, and where both
define a name the definition of the second one stays. Documents that are put together from
lists of definitions are put behind each other as the lists are. -/

namespace SchemaLang

/-! ### Tables -/

namespace Table

variable {α β : Type} {t u : Table α} {k : String} {v : α}

/-- Tables with the same names in the same order and the same value under each are the same. -/
theorem ext_get? (hk : t.keys = u.keys) (h : ∀ k, t.get? k = u.get? k) : t = u := by
  have hentries : ∀ t : Table α,
      t.entries = t.keys.filterMap fun k => (t.get? k).map fun v => (k, v) := by
    intro t
    rw [keys, List.filterMap_map]
    refine List.filterMap_some.symm.trans (List.filterMap_congr fun e he => ?_)
    simp [get?_eq_some_iff.mpr he]
  apply ext
  rw [hentries t, hentries u, hk]
  simp only [h]

/-- Values that were put in already change nothing when they are put in again. -/
theorem insertAll_insertAll {es : List (String × α)} (h : (es.map Prod.fst).Nodup) (t : Table α) :
    (t.insertAll es).insertAll es = t.insertAll es := by
  refine ext_get? ?_ fun k => ?_
  · have hold : (es.map Prod.fst).filter (· ∉ (t.insertAll es).keys) = [] := by
      rw [List.filter_eq_nil_iff, keys_insertAll h]
      intro k hk
      by_cases ht : k ∈ t.keys <;> simp_all
    rw [keys_insertAll h, hold, List.append_nil]
  · rw [get?_insertAll h, get?_insertAll h, ← Option.or_assoc, Option.or_self]

/-- The values of `u` put into `t`, in order. -/
def append (t u : Table α) : Table α := t.insertAll u.entries

theorem get?_append (t u : Table α) (k : String) :
    (t.append u).get? k = (u.get? k).or (t.get? k) := get?_insertAll u.distinct t k

theorem keys_append (t u : Table α) :
    (t.append u).keys = t.keys ++ u.keys.filter (· ∉ t.keys) := keys_insertAll u.distinct t

theorem mem_keys_append : k ∈ (t.append u).keys ↔ k ∈ t.keys ∨ k ∈ u.keys := by
  rw [keys_append, List.mem_append, List.mem_filter, decide_eq_true_eq]
  tauto

@[simp] theorem append_empty (t : Table α) : t.append ∅ = t := rfl

@[simp] theorem empty_append (t : Table α) : (∅ : Table α).append t = t :=
  ext_get? (by rw [keys_append]; simp [keys, EmptyCollection.emptyCollection, empty])
    fun k => by rw [get?_append, get?_empty, Option.or_none]

theorem append_insert (t u : Table α) (k : String) (v : α) :
    t.append (u.insert k v) = (t.append u).insert k v := by
  refine ext_get? ?_ fun l => ?_
  · by_cases hu : k ∈ u.keys
    · rw [keys_insert_of_mem (mem_keys_append.mpr (.inr hu)), keys_append, keys_append,
        keys_insert_of_mem hu]
    · by_cases ht : k ∈ t.keys
      · rw [keys_insert_of_mem (mem_keys_append.mpr (.inl ht)), keys_append, keys_append,
          keys_insert_of_not_mem hu]
        simp [ht]
      · rw [keys_insert_of_not_mem (by simp [mem_keys_append, hu, ht]), keys_append, keys_append,
          keys_insert_of_not_mem hu]
        simp [ht]
  · rw [get?_append, get?_insert, get?_insert, get?_append]
    split <;> rfl

/-- Names that are all new come behind. -/
theorem entries_append (h : ∀ k ∈ u.keys, k ∉ t.keys) :
    (t.append u).entries = t.entries ++ u.entries :=
  insertAll_append (List.nodup_append.mpr
    ⟨t.distinct, u.distinct, fun _ ha b hb hab => h b hb (hab ▸ ha)⟩)

theorem map_append (f : α → β) (t u : Table α) :
    (t.append u).map f = (t.map f).append (u.map f) := by
  refine ext_get? ?_ fun k => ?_
  · simp only [keys_append, keys_map]
  · rw [get?_map, get?_append, get?_append, get?_map, get?_map]
    cases u.get? k <;> rfl

/-- Values put behind a table one by one, each changed on its way. -/
theorem append_map {key : α → String} (h : u.KeyedBy key)
    (f : α → α) (t : Table α) :
    t.append (u.map f) = u.values.foldl (fun t v => t.insert (key v) (f v)) t := by
  rw [append, insertAll, map, values, List.foldl_map, List.foldl_map]
  apply List.foldl_ext
  intro t e he
  rw [h e he]

theorem mem_values_append {w : α} (h : w ∈ (t.append u).values) : w ∈ t.values ∨ w ∈ u.values := by
  obtain ⟨k, hk⟩ := mem_values_iff_get?.mp h
  rw [get?_append, Option.or_eq_some_iff] at hk
  rcases hk with hk | ⟨-, hk⟩
  · exact .inr (mem_values_iff_get?.mpr ⟨k, hk⟩)
  · exact .inl (mem_values_iff_get?.mpr ⟨k, hk⟩)

theorem KeyedBy.append {name : α → String} (ht : t.KeyedBy name) (hu : u.KeyedBy name) :
    (t.append u).KeyedBy name := by
  intro e he
  have hm := get?_eq_some_iff.mpr he
  rw [get?_append, Option.or_eq_some_iff] at hm
  rcases hm with hm | ⟨-, hm⟩
  · exact hu _ (get?_eq_some_iff.mp hm)
  · exact ht _ (get?_eq_some_iff.mp hm)

end Table

/-! ### Documents -/

namespace Document

variable {d e : Document}

/-- The definitions of `e` put behind those of `d`. -/
def append (d e : Document) : Document where
  name := d.name
  schema := e.schema.or d.schema
  directives := d.directives.append e.directives
  types := d.types.append e.types

/-- A document of types only. -/
def ofTypes (types : Table TypeDefinition) : Document := { empty "" with types }

theorem get?_append (d e : Document) (n : String) :
    (d.append e).get? n = (e.get? n).or (d.get? n) := Table.get?_append _ _ n

@[simp] theorem append_empty (d : Document) (name : String) : d.append (empty name) = d := rfl

theorem empty_append (d : Document) : (empty d.name).append d = d := by
  obtain ⟨name, schema, directives, types⟩ := d
  rw [append]
  dsimp only [empty]
  rw [Option.or_none, Table.empty_append, Table.empty_append]

theorem append_define (d e : Document) (v : Definition) :
    d.append (e.define v) = (d.append e).define v := by
  cases v with
  | schema s => rfl
  | directive v => simp only [append, define, Table.append_insert]
  | type t => simp only [append, define, insert, insertUnder, Table.append_insert]

/-- Definitions added to a document are a document of their own put behind it. -/
theorem foldl_define_eq_append (vs : List Definition) (d : Document) (name : String) :
    vs.foldl define d = d.append (vs.foldl define (empty name)) := by
  induction vs using List.reverseRecOn with
  | nil => rfl
  | append_singleton vs v ih =>
    rw [List.foldl_append, List.foldl_append, ih]
    exact (append_define _ _ v).symm

/-- The definitions of all documents in the list, one behind the other. -/
def appendAll (name : String) (ds : List Document) : Document := ds.foldr append (empty name)

theorem relabel_append (ρ : Relabeling) (d e : Document) :
    (d.append e).relabel ρ = (d.relabel ρ).append (e.relabel ρ) := by
  simp only [append, relabel, Table.map_append]
  cases e.schema <;> rfl

theorem Keyed.append (hd : d.Keyed) (he : e.Keyed) : (d.append e).Keyed :=
  ⟨hd.types.append he.types, hd.directives.append he.directives⟩

theorem WellFormed.append (hd : d.WellFormed) (he : e.WellFormed) : (d.append e).WellFormed where
  keyed := hd.keyed.append he.keyed
  schema := by
    intro s hs
    rcases Option.or_eq_some_iff.mp hs with hs | ⟨-, hs⟩
    · exact he.schema s hs
    · exact hd.schema s hs
  directives := fun v hv => (Table.mem_values_append hv).elim (hd.directives v) (he.directives v)
  types := fun t ht => (Table.mem_values_append ht).elim (hd.types t) (he.types t)

/-- Every reference comes from one of the two documents. -/
theorem Mentions.of_append {r : TypeRef} (h : (d.append e).Mentions r) :
    d.Mentions r ∨ e.Mentions r := by
  cases h with
  | implemented ht hb hr =>
    exact (Table.mem_values_append ht).imp (.implemented · hb hr) (.implemented · hb hr)
  | field ht hb hf => exact (Table.mem_values_append ht).imp (.field · hb hf) (.field · hb hf)
  | argument ht hb hf ha =>
    exact (Table.mem_values_append ht).imp (.argument · hb hf ha) (.argument · hb hf ha)
  | member ht hb hr => exact (Table.mem_values_append ht).imp (.member · hb hr) (.member · hb hr)
  | inputField ht hb hv =>
    exact (Table.mem_values_append ht).imp (.inputField · hb hv) (.inputField · hb hv)
  | directiveArgument hv ha =>
    exact (Table.mem_values_append hv).imp (.directiveArgument · ha) (.directiveArgument · ha)
  | rootOperation hs hop =>
    rcases Option.or_eq_some_iff.mp hs with hs | ⟨-, hs⟩
    · exact .inr (.rootOperation hs hop)
    · exact .inl (.rootOperation hs hop)

end Document

end SchemaLang
