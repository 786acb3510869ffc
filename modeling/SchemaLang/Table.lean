/-! Tables: values under distinct names, in the order in which the names came. A name
that comes again keeps its slot. -/

namespace SchemaLang

/-- Values under distinct names, in order. -/
structure Table (α : Type) where
  entries : List (String × α)
  distinct : (entries.map Prod.fst).Nodup

namespace Table

variable {α β σ : Type} {t : Table α} {k k' : String} {v : α}

theorem ext {t u : Table α} (h : t.entries = u.entries) : t = u := by
  cases t; cases u; cases h; rfl

def empty : Table α := ⟨[], by simp⟩

instance : EmptyCollection (Table α) := ⟨empty⟩

instance : Inhabited (Table α) := ⟨empty⟩

def keys (t : Table α) : List String := t.entries.map Prod.fst

def values (t : Table α) : List α := t.entries.map Prod.snd

def size (t : Table α) : Nat := t.entries.length

def isEmpty (t : Table α) : Bool := t.entries.isEmpty

/-- The value under a name. -/
def get? (t : Table α) (k : String) : Option α := t.entries.lookup k

def contains (t : Table α) (k : String) : Bool := t.keys.contains k

/-- The slot of a name. -/
def slot? (t : Table α) (k : String) : Option Nat := t.keys.idxOf? k

/-- The value in a slot. -/
def at? (t : Table α) (i : Nat) : Option α := t.entries[i]?.map Prod.snd

/-! ### Changing values in place -/

theorem map_fst_map (f : String × α → β) (es : List (String × α)) :
    (es.map fun e => (e.1, f e)).map Prod.fst = es.map Prod.fst := by
  simp [Function.comp_def]

/-- Every value changed, no name. -/
def map (f : α → β) (t : Table α) : Table β :=
  ⟨t.entries.map fun e => (e.1, f e.2), by rw [map_fst_map]; exact t.distinct⟩

theorem map_fst_modify (f : α → α) (es : List (String × α)) (i : Nat) :
    (es.modify i fun e => (e.1, f e.2)).map Prod.fst = es.map Prod.fst := by
  induction es generalizing i with
  | nil => simp
  | cons e es ih => cases i <;> simp [ih]

/-- The value in one slot changed, if there is the slot. -/
def modify (t : Table α) (i : Nat) (f : α → α) : Table α :=
  ⟨t.entries.modify i fun e => (e.1, f e.2), by rw [map_fst_modify]; exact t.distinct⟩

/-- Values changed one after the other by a step that carries a state. -/
def visitEntries (f : α → StateM σ β) : List (String × α) → StateM σ (List (String × β))
  | [] => pure []
  | e :: es => do
    let v ← f e.2
    let rest ← visitEntries f es
    return (e.1, v) :: rest

theorem map_fst_visitEntries (f : α → StateM σ β) (es : List (String × α)) (s : σ) :
    (visitEntries f es s).1.map Prod.fst = es.map Prod.fst := by
  induction es generalizing s with
  | nil => rfl
  | cons e es ih => exact congrArg (e.1 :: ·) (ih (f e.2 s).2)

/-- Every value changed in order, no name, by a step that carries a state. -/
def visit (f : α → StateM σ β) (t : Table α) : StateM σ (Table β) := fun s =>
  (⟨(visitEntries f t.entries s).1, by rw [map_fst_visitEntries]; exact t.distinct⟩,
    (visitEntries f t.entries s).2)

/-! ### Adding and removing names -/

theorem nodup_append_of_not_mem {ks : List String} (h : ks.Nodup) (hk : ks.contains k = false) :
    (ks ++ [k]).Nodup := by
  simp only [List.contains_eq_mem, decide_eq_false_iff_not] at hk
  simp only [List.nodup_append, h, List.nodup_cons, List.not_mem_nil, not_false_eq_true,
    List.nodup_nil, and_self, List.mem_cons, or_false, true_and]
  rintro a ha b rfl rfl
  exact hk ha

/-- The value put under a name: in the slot of the name if it has one, else at the end. -/
def insert (t : Table α) (k : String) (v : α) : Table α :=
  if h : t.keys.contains k = false then
    ⟨t.entries ++ [(k, v)], by
      rw [List.map_append]; exact nodup_append_of_not_mem t.distinct h⟩
  else
    ⟨t.entries.map fun e => (e.1, if e.1 = k then v else e.2), by
      rw [map_fst_map]; exact t.distinct⟩

/-- The table without a name; the order of the others stays. -/
def erase (t : Table α) (k : String) : Table α :=
  ⟨t.entries.filter fun e => e.1 ≠ k,
    t.distinct.sublist (List.filter_sublist.map Prod.fst)⟩

/-! ### What the operations do, seen through `get?` and `keys` -/

theorem lookup_eq_some_iff {es : List (String × α)} (h : (es.map Prod.fst).Nodup) :
    es.lookup k = some v ↔ (k, v) ∈ es := by
  induction es with
  | nil => simp
  | cons e es ih =>
    obtain ⟨l, w⟩ := e
    simp only [List.map_cons, List.nodup_cons] at h
    by_cases hk : k = l
    · subst hk
      have hv : (k, v) ∉ es := fun hm => h.1 (List.mem_map_of_mem hm)
      simp [hv, eq_comm]
    · have hb : (k == l) = false := by simpa using hk
      simp [List.lookup_cons, hb, ih h.2, hk]

theorem get?_eq_some_iff : t.get? k = some v ↔ (k, v) ∈ t.entries :=
  lookup_eq_some_iff t.distinct

@[simp] theorem get?_empty : (∅ : Table α).get? k = none := rfl

theorem mem_keys_iff : k ∈ t.keys ↔ ∃ v, t.get? k = some v := by
  simp [keys, get?_eq_some_iff]

theorem contains_eq_true_iff : t.contains k = true ↔ ∃ v, t.get? k = some v := by
  simp [contains, mem_keys_iff]

/-- Only the name that is put in gets a new value. -/
theorem get?_insert : (t.insert k v).get? k' = if k' = k then some v else t.get? k' := by
  refine Option.ext fun w => ?_
  rw [get?_eq_some_iff]
  unfold insert
  split
  next h =>
    have hk : ∀ u, (k, u) ∉ t.entries := by
      intro u hu
      have : k ∈ t.keys := mem_keys_iff.mpr ⟨u, get?_eq_some_iff.mpr hu⟩
      simp_all
    split
    next heq =>
      subst heq
      simp [hk, eq_comm]
    next hne => simp [get?_eq_some_iff, hne]
  next h =>
    have hk : k ∈ t.keys := by simpa using h
    obtain ⟨u, hu⟩ := mem_keys_iff.mp hk
    have hu := get?_eq_some_iff.mp hu
    split
    next heq =>
      subst heq
      simp only [List.mem_map, Prod.mk.injEq, Prod.exists, Option.some.injEq]
      constructor
      · rintro ⟨a, b, -, rfl, hw⟩
        simpa using hw
      · rintro rfl
        exact ⟨k', u, hu, rfl, by simp⟩
    next hne =>
      simp only [List.mem_map, Prod.mk.injEq, Prod.exists, get?_eq_some_iff]
      constructor
      · rintro ⟨a, b, hm, rfl, hw⟩
        simp only [hne, if_false] at hw
        exact hw ▸ hm
      · intro hm
        exact ⟨k', w, hm, rfl, by simp [hne]⟩

/-- A name that is there keeps its slot. -/
theorem keys_insert_of_mem (h : k ∈ t.keys) : (t.insert k v).keys = t.keys := by
  have hc : t.keys.contains k = true := by simpa using h
  unfold insert
  rw [dif_neg (by rw [hc]; simp)]
  exact map_fst_map _ _

/-- A new name comes last. -/
theorem keys_insert_of_not_mem (h : k ∉ t.keys) : (t.insert k v).keys = t.keys ++ [k] := by
  have hc : t.keys.contains k = false := by simpa using h
  unfold insert
  rw [dif_pos hc]
  simp [keys]

/-- Only the name that is taken out loses its value. -/
theorem get?_erase : (t.erase k).get? k' = if k' = k then none else t.get? k' := by
  refine Option.ext fun w => ?_
  rw [get?_eq_some_iff]
  split
  next h => simp [erase, h]
  next h => simp [erase, get?_eq_some_iff, h]

theorem keys_erase : (t.erase k).keys = t.keys.filter (· ≠ k) := by
  simp [keys, erase, List.filter_map, Function.comp_def]

@[simp] theorem keys_map (f : α → β) : (t.map f).keys = t.keys := map_fst_map _ _

theorem get?_map (f : α → β) : (t.map f).get? k = (t.get? k).map f := by
  refine Option.ext fun w => ?_
  rw [get?_eq_some_iff]
  simp only [map, List.mem_map, Prod.mk.injEq, Prod.exists, Option.map_eq_some_iff,
    get?_eq_some_iff]
  constructor
  · rintro ⟨a, b, hm, rfl, hw⟩
    exact ⟨b, hm, hw⟩
  · rintro ⟨b, hm, hw⟩
    exact ⟨k, b, hm, rfl, hw⟩

theorem at?_modify (i j : Nat) (f : α → α) :
    (t.modify i f).at? j = if i = j then (t.at? j).map f else t.at? j := by
  simp only [at?, modify, List.getElem?_modify]
  split
  · cases t.entries[j]? <;> simp_all
  · cases t.entries[j]? <;> simp_all

/-! ### Comparing without the order -/

/-- Do two tables hold the same names with values that `eq` relates? The order of the names
does not count. -/
def agree (eq : α → α → Bool) (t u : Table α) : Bool :=
  t.size == u.size && t.entries.all fun e =>
    match u.get? e.1 with
    | some v => eq e.2 v
    | none => false

instance [BEq α] : BEq (Table α) := ⟨agree (· == ·)⟩

end Table

end SchemaLang
