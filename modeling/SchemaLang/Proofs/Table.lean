import Mathlib.Data.List.Basic
import SchemaLang.Table

/-! Tables seen through their slots: a slot is a place in the list of entries, and a name, its
slot and its value determine each other. -/

namespace SchemaLang.Table

variable {α β : Type} {t : Table α} {k : String} {v : α} {i j : Nat}

/-! ### Slots -/

theorem getElem?_values (t : Table α) (i : Nat) : t.values[i]? = t.at? i := by
  simp [values, at?]

theorem at?_eq_some_iff : t.at? i = some v ↔ ∃ k, t.entries[i]? = some (k, v) := by
  simp only [at?, Option.map_eq_some_iff, Prod.exists, exists_eq_right]

theorem mem_values_iff_at? : v ∈ t.values ↔ ∃ i, t.at? i = some v := by
  simp only [List.mem_iff_getElem?, getElem?_values]

theorem mem_values_iff_get? : v ∈ t.values ↔ ∃ k, t.get? k = some v := by
  simp [values, get?_eq_some_iff]

theorem getElem?_entries_of_slot? (h : t.slot? k = some i) : ∃ v, t.entries[i]? = some (k, v) := by
  unfold slot? keys at h
  rw [List.idxOf?, List.findIdx?_eq_some_iff_getElem] at h
  obtain ⟨hi, hk, -⟩ := h
  rw [List.length_map] at hi
  refine ⟨t.entries[i].2, ?_⟩
  rw [List.getElem?_eq_getElem hi, ← beq_iff_eq.mp hk, List.getElem_map]

/-- The value in the slot of a name is the value under the name. -/
theorem at?_of_slot? (h : t.slot? k = some i) : t.at? i = t.get? k := by
  obtain ⟨v, hv⟩ := getElem?_entries_of_slot? h
  rw [at?_eq_some_iff.mpr ⟨k, hv⟩, get?_eq_some_iff.mpr (List.mem_of_getElem? hv)]

theorem get?_eq_none_iff : t.get? k = none ↔ k ∉ t.keys := by
  rw [mem_keys_iff, not_exists, Option.eq_none_iff_forall_ne_some]

theorem slot?_eq_none_iff : t.slot? k = none ↔ t.get? k = none := by
  rw [slot?, List.idxOf?_eq_none_iff, Option.eq_none_iff_forall_ne_some, mem_keys_iff, not_exists]

theorem slot?_isSome : (t.slot? k).isSome = (t.get? k).isSome := by
  rw [Bool.eq_iff_iff, ← Option.ne_none_iff_isSome, ← Option.ne_none_iff_isSome, ne_eq, ne_eq,
    slot?_eq_none_iff]

/-! ### Names and values in order -/

theorem entries_map (f : α → β) :
    (t.map f).entries = t.entries.map fun e => (e.1, f e.2) := rfl

@[simp] theorem values_map (f : α → β) : (t.map f).values = t.values.map f := by
  simp [values, map, Function.comp_def]

@[simp] theorem at?_map (f : α → β) (i : Nat) : (t.map f).at? i = (t.at? i).map f := by
  simp [at?, map, Option.map_map, Function.comp_def]

/-- Entries are visited one after the other, each keeping its name. -/
theorem visitEntries_eq {σ : Type} (visit : α → StateM σ β) (es : List (String × α)) :
    visitEntries visit es = es.mapM fun e => (e.1, ·) <$> visit e.2 := by
  induction es with
  | nil => rfl
  | cons e es ih =>
    rw [visitEntries, ih, List.mapM_cons]
    simp

/-- Every value is under the name that `name` gives it. -/
def KeyedBy (name : α → String) (t : Table α) : Prop := ∀ e ∈ t.entries, name e.2 = e.1

section

variable {name : α → String}

theorem KeyedBy.empty : KeyedBy name (∅ : Table α) := fun _ he => nomatch he

theorem KeyedBy.insert (h : t.KeyedBy name) (v : α) : (t.insert (name v) v).KeyedBy name := by
  intro e he
  have hm : (t.insert (name v) v).get? e.1 = some e.2 := get?_eq_some_iff.mpr he
  rw [get?_insert] at hm
  split at hm
  next heq => rw [heq, ← Option.some.inj hm]
  next => exact h e (get?_eq_some_iff.mp hm)

theorem KeyedBy.modify {f : α → α} (h : t.KeyedBy name) (hf : ∀ v, name (f v) = name v) (i : Nat) :
    (t.modify i f).KeyedBy name := by
  intro e he
  obtain ⟨j, hj⟩ := List.mem_iff_getElem?.mp he
  rw [Table.modify, List.getElem?_modify] at hj
  obtain ⟨e', he', rfl⟩ := Option.map_eq_some_iff.mp hj
  have := h e' (List.mem_of_getElem? he')
  split
  · simpa [hf] using this
  · exact this

theorem KeyedBy.keys_eq (h : t.KeyedBy name) : t.keys = t.values.map name := by
  rw [keys, values, List.map_map]
  exact List.map_congr_left fun e he => (h e he).symm

theorem KeyedBy.entries_map (h : t.KeyedBy name) (f : α → β) :
    (t.map f).entries = t.values.map fun v => (name v, f v) := by
  rw [Table.entries_map, values, List.map_map]
  exact List.map_congr_left fun e he => by rw [Function.comp, h e he]

theorem KeyedBy.nodup (h : t.KeyedBy name) : (t.values.map name).Nodup :=
  h.keys_eq ▸ t.distinct

end

/-! ### Many values put in -/

theorem keys_insert (t : Table α) (k : String) (v : α) :
    (t.insert k v).keys = if k ∈ t.keys then t.keys else t.keys ++ [k] := by
  split
  next h => exact keys_insert_of_mem h
  next h => exact keys_insert_of_not_mem h

/-- The table `u` is `t` with the value `v` under the name `k`: a name that is there keeps its slot,
a new one comes last, and all other names keep their values. -/
structure Gains (t : Table α) (k : String) (v : α) (u : Table α) : Prop where
  keys : u.keys = if k ∈ t.keys then t.keys else t.keys ++ [k]
  get? : ∀ k', u.get? k' = if k' = k then some v else t.get? k'

theorem gains_insert (t : Table α) (k : String) (v : α) : t.Gains k v (t.insert k v) :=
  ⟨keys_insert t k v, fun _ => get?_insert⟩

theorem entries_insert_of_not_mem (h : k ∉ t.keys) (v : α) :
    (t.insert k v).entries = t.entries ++ [(k, v)] := by
  have hc : t.keys.contains k = false := by simpa using h
  unfold insert
  rw [dif_pos hc]

theorem entries_insert_of_mem (h : k ∈ t.keys) (v : α) :
    (t.insert k v).entries = t.entries.map fun e => (e.1, if e.1 = k then v else e.2) := by
  have hc : t.keys.contains k = true := by simpa using h
  unfold insert
  rw [dif_neg (by rw [hc]; simp)]

theorem map_insert (f : α → β) (t : Table α) (k : String) (v : α) :
    (t.insert k v).map f = (t.map f).insert k (f v) := by
  apply ext
  by_cases hk : k ∈ t.keys
  · rw [entries_map, entries_insert_of_mem hk, entries_insert_of_mem (by rwa [keys_map]),
      entries_map, List.map_map, List.map_map]
    refine List.map_congr_left fun e _ => ?_
    simp only [Function.comp]
    split <;> rfl
  · rw [entries_map, entries_insert_of_not_mem hk, entries_insert_of_not_mem (by rwa [keys_map]),
      entries_map, List.map_append]
    rfl

/-- Of two values put under one name the later one stays. -/
@[simp] theorem insert_insert (t : Table α) (k : String) (v w : α) :
    (t.insert k v).insert k w = t.insert k w := by
  apply ext
  have hk : k ∈ (t.insert k v).keys := mem_keys_iff.mpr ⟨v, by simp [get?_insert]⟩
  rw [entries_insert_of_mem hk]
  by_cases h : k ∈ t.keys
  · rw [entries_insert_of_mem h, entries_insert_of_mem h, List.map_map]
    refine List.map_congr_left fun e _ => ?_
    by_cases he : e.1 = k <;> simp [he]
  · rw [entries_insert_of_not_mem h, entries_insert_of_not_mem h, List.map_append]
    have hid : t.entries.map (fun e => (e.1, if e.1 = k then w else e.2)) = t.entries := by
      refine (List.map_congr_left fun e he => ?_).trans (List.map_id _)
      have hne : e.1 ≠ k := fun hek => h (hek ▸ List.mem_map_of_mem he)
      rw [if_neg hne, id]
    rw [hid]
    simp

/-- Values put in one after the other. -/
def insertAll (t : Table α) (es : List (String × α)) : Table α :=
  es.foldl (fun t e => t.insert e.1 e.2) t

@[simp] theorem insertAll_nil (t : Table α) : t.insertAll [] = t := rfl

@[simp] theorem insertAll_cons (t : Table α) (e : String × α) (es : List (String × α)) :
    t.insertAll (e :: es) = (t.insert e.1 e.2).insertAll es := rfl

theorem get?_insertAll {es : List (String × α)} (h : (es.map Prod.fst).Nodup) (t : Table α)
    (k : String) : (t.insertAll es).get? k = (es.lookup k).or (t.get? k) := by
  induction es generalizing t with
  | nil => simp
  | cons e es ih =>
    obtain ⟨l, w⟩ := e
    simp only [List.map_cons, List.nodup_cons] at h
    rw [insertAll_cons, ih h.2, get?_insert]
    by_cases hk : k = l
    · subst hk
      have hn : es.lookup k = none := by
        refine List.lookup_eq_none_iff.mpr fun e he => ?_
        have hne : k ≠ e.1 := fun hek => h.1 (hek ▸ List.mem_map_of_mem he)
        simpa using hne
      simp [hn]
    · have hb : (k == l) = false := by simpa using hk
      simp [List.lookup_cons, hb, hk]

/-- The new names come last, in their order. -/
theorem keys_insertAll {es : List (String × α)} (h : (es.map Prod.fst).Nodup) (t : Table α) :
    (t.insertAll es).keys = t.keys ++ (es.map Prod.fst).filter (· ∉ t.keys) := by
  induction es generalizing t with
  | nil => simp
  | cons e es ih =>
    obtain ⟨l, w⟩ := e
    simp only [List.map_cons, List.nodup_cons] at h
    rw [insertAll_cons, ih h.2]
    by_cases hk : l ∈ t.keys
    · rw [keys_insert_of_mem hk]
      simp [hk]
    · rw [keys_insert_of_not_mem hk, List.map_cons, List.filter_cons, if_pos (by simpa using hk),
        List.append_assoc, List.singleton_append]
      congr 2
      refine List.filter_congr fun x hx => ?_
      have : x ≠ l := fun hxl => h.1 (hxl ▸ hx)
      simp [this]

/-- A table is its entries put into the empty one. -/
theorem insertAll_append {es : List (String × α)} (h : (t.keys ++ es.map Prod.fst).Nodup) :
    (t.insertAll es).entries = t.entries ++ es := by
  induction es generalizing t with
  | nil => simp
  | cons e es ih =>
    have hk : e.1 ∉ t.keys := by
      simp only [List.map_cons, List.nodup_append] at h
      exact fun hm => h.2.2 _ hm _ List.mem_cons_self rfl
    rw [insertAll_cons, ih, entries_insert_of_not_mem hk, List.append_assoc, List.singleton_append]
    rw [keys_insert_of_not_mem hk]
    simpa using h

theorem KeyedBy.insertAll_values {name : α → String} (h : t.KeyedBy name) :
    (∅ : Table α).insertAll (t.values.map fun v => (name v, v)) = t := by
  have hnodup : ((∅ : Table α).keys ++ (t.values.map fun v => (name v, v)).map Prod.fst).Nodup := by
    rw [List.map_map]
    exact h.nodup
  apply ext
  rw [insertAll_append hnodup]
  exact (h.entries_map id).symm.trans (List.map_id _)

end SchemaLang.Table
