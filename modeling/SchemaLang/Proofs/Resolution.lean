import SchemaLang.Proofs.References
import SchemaLang.Proofs.Rounds
import SchemaLang.Resolution

/-! What resolving comes to. Every reference of a document gets the binding that its name has,
if it has one; names and wrappers, places, and the kinds of the types stay. Nothing is
reported exactly if all names are known and the interfaces are interfaces. -/

namespace SchemaLang

/-! ### Names and kinds stay -/

namespace Document

variable {d : Document}

/-- The names of the types and their kinds, in order. -/
def kinds (d : Document) : List (String × TypeKind) := d.types.entries.map fun e => (e.1, e.2.kind)

@[simp] theorem kinds_bind (d : Document) (p : RefPath) (b : Option Binding) :
    (d.bind p b).kinds = d.kinds := by
  cases p with
  | type slot p =>
    refine List.ext_getElem? fun i => ?_
    simp only [kinds, bind, modifyRef, Table.modify, List.getElem?_map, List.getElem?_modify]
    cases d.types.entries[i]? with
    | none => rfl
    | some e => by_cases hi : slot = i <;> simp [hi]
  | directiveArgument i j => rfl
  | rootOperation i => rfl

theorem keys_of_kinds {d e : Document} (h : d.kinds = e.kinds) : d.types.keys = e.types.keys := by
  simpa [kinds, Table.keys, Function.comp_def] using congrArg (List.map Prod.fst) h

theorem kind_get?_of_kinds {d e : Document} (h : d.kinds = e.kinds) (n : String) :
    (d.get? n).map (·.kind) = (e.get? n).map (·.kind) := by
  have hlookup : ∀ d : Document, (d.get? n).map (·.kind) = d.kinds.lookup n := by
    intro d
    unfold get? Table.get? kinds
    induction d.types.entries with
    | nil => rfl
    | cons e es ih =>
      obtain ⟨k, t⟩ := e
      by_cases hk : n = k
      · simp [hk]
      · have hb : (n == k) = false := by simpa using hk
        simpa [List.lookup_cons, hb] using ih
  rw [hlookup, hlookup, h]

theorem slot?_of_kinds {d e : Document} (h : d.kinds = e.kinds) (n : String) :
    d.types.slot? n = e.types.slot? n := by
  rw [Table.slot?, Table.slot?, keys_of_kinds h]

theorem Keyed.bind (h : d.Keyed) (p : RefPath) (b : Option Binding) : (d.bind p b).Keyed := by
  cases p with
  | type slot p => exact ⟨h.types.modify (fun t => by simp) slot, h.directives⟩
  | directiveArgument i j =>
    refine ⟨h.types, Table.KeyedBy.modify h.directives ?_ i⟩
    exact fun v => rfl
  | rootOperation i => exact ⟨h.types, h.directives⟩

end Document

/-! ### What a name stands for -/

namespace Registry

variable {reg : Registry} {context : String} {d : Document}

/-- Is the name one of a built-in scalar, of a type of the document, or of a type that the
registry holds in the document `context`? -/
def Knows (reg : Registry) (context : String) (d : Document) (name : String) : Prop :=
  isBuiltinScalar name = true ∨ (∃ t, d.get? name = some t) ∨ ∃ t, reg.type? context name = some t

/-- The type of that name: the document's own one if it has one, else the one that the registry
holds in the document `context`. -/
def meaning? (reg : Registry) (context : String) (d : Document) (name : String) :
    Option TypeDefinition :=
  (d.get? name).or (reg.type? context name)

/-- Is the name that of an interface, and of no built-in scalar? -/
def KnowsInterface (reg : Registry) (context : String) (d : Document) (name : String) : Prop :=
  isBuiltinScalar name = false ∧ ∃ t, reg.meaning? context d name = some t ∧ t.kind = .interface

theorem lookup_of_get? (reg : Registry) (context : String) {n : String} {t : TypeDefinition}
    (hn : isBuiltinScalar n = false) (ht : d.get? n = some t) :
    ∃ slot, d.types.slot? n = some slot ∧ reg.lookup context d n = some (.here slot t.kind) := by
  have hs : (d.types.slot? n).isSome := by
    rw [Table.slot?_isSome]
    exact Option.isSome_iff_exists.mpr ⟨t, ht⟩
  obtain ⟨slot, hs⟩ := Option.isSome_iff_exists.mp hs
  exact ⟨slot, hs, by simp [lookup, hn, hs, ht]⟩

theorem lookup_of_get?_eq_none {n : String} (hn : isBuiltinScalar n = false)
    (ht : d.get? n = none) :
    reg.lookup context d n = (reg.type? context n).map fun t => .stored context t.kind := by
  have hs : d.types.slot? n = none := Table.slot?_eq_none_iff.mpr ht
  simp [lookup, hn, hs]

theorem lookup_isSome_iff {n : String} :
    (reg.lookup context d n).isSome = true ↔ reg.Knows context d n := by
  unfold Knows
  cases hn : isBuiltinScalar n with
  | true => simp [lookup, hn]
  | false =>
    cases ht : d.get? n with
    | some t =>
      obtain ⟨slot, -, hl⟩ := reg.lookup_of_get? context hn ht
      simp [hl]
    | none => simp [lookup_of_get?_eq_none hn ht, Option.isSome_iff_exists]

/-- The kind of a binding is the kind of the type that the name stands for. -/
theorem kind_lookup {n : String} {b : Binding} (h : reg.lookup context d n = some b) :
    b.kind = .interface ↔ reg.KnowsInterface context d n := by
  unfold KnowsInterface meaning?
  cases hn : isBuiltinScalar n with
  | true =>
    have hb : b = .builtin := by simpa [lookup, hn, eq_comm] using h
    simp [hb, Binding.kind]
  | false =>
    cases ht : d.get? n with
    | some t =>
      obtain ⟨slot, -, hl⟩ := reg.lookup_of_get? context hn ht
      rw [hl] at h
      cases h
      simp [Binding.kind]
    | none =>
      rw [lookup_of_get?_eq_none hn ht] at h
      obtain ⟨t, ht, rfl⟩ := Option.map_eq_some_iff.mp h
      simp [Binding.kind, ht]

/-- A site gets a binding if its name is known and, where an interface has to stand, is the name
of one. -/
theorem bindingFor_ok_iff {s : RefSite} :
    (∃ b, reg.bindingFor context d s = .ok b) ↔
      reg.Knows context d s.name ∧
        (s.path.isInterface = true → reg.KnowsInterface context d s.name) := by
  unfold bindingFor
  rw [← lookup_isSome_iff]
  cases hl : reg.lookup context d s.name with
  | none => simp
  | some b =>
    rw [← kind_lookup hl]
    dsimp only
    split <;> simp_all

theorem lookup_of_bindingFor {s : RefSite} {b : Binding}
    (h : reg.bindingFor context d s = .ok b) : reg.lookup context d s.name = some b := by
  unfold bindingFor at h
  split at h
  next => cases h
  next b' hl =>
    split at h
    · cases h
    · cases h
      exact hl

/-! ### Binding the references at the sites -/

/-- A reference with the binding for a site, if there is one. -/
def rebind (reg : Registry) (context : String) (d : Document) (s : RefSite) (r : TypeRef) :
    TypeRef :=
  match reg.bindingFor context d s with
  | .ok b => { r with binding := some b }
  | .error _ => r

theorem of_rebind (s : RefSite) (p : RefPath) (r : TypeRef) :
    RefSite.of p (reg.rebind context d s r) = .of p r := by
  unfold rebind
  split <;> rfl

@[simp] theorem rebind_rebind (s : RefSite) (r : TypeRef) :
    reg.rebind context d s (reg.rebind context d s r) = reg.rebind context d s r := by
  cases h : reg.bindingFor context d s <;> simp [rebind, h]

@[simp] theorem name_rebind (s : RefSite) (r : TypeRef) :
    (reg.rebind context d s r).name = r.name :=
  congrArg RefSite.name (of_rebind s (.rootOperation 0) r)

theorem ref?_bindSite (scope : Document) (s : RefSite) (p : RefPath) :
    (Document.bindSite reg context scope d s).ref? p =
      if s.path = p then (d.ref? p).map (reg.rebind context scope s) else d.ref? p := by
  cases h : reg.bindingFor context scope s with
  | ok b =>
    have hr : reg.rebind context scope s = fun r => { r with binding := some b } := by
      funext r
      rw [rebind, h]
    rw [hr, Document.bindSite, h]
    exact Document.ref?_modifyRef _ _ _ _
  | error e =>
    have hr : reg.rebind context scope s = id := by
      funext r
      rw [rebind, h, id]
    rw [hr, Document.bindSite, h, Option.map_id, id, ite_self]

/-- References that stand at some of the sites are bound, and the others stay. -/
theorem ref?_foldl_bindSite (scope : Document) (ss : List RefSite)
    (h : ∀ s ∈ ss, ∀ r, d.ref? s.path = some r → s = .of s.path r) (p : RefPath) :
    (ss.foldl (Document.bindSite reg context scope) d).ref? p =
      if p ∈ ss.map RefSite.path then
        (d.ref? p).map fun r => reg.rebind context scope (.of p r) r
      else d.ref? p := by
  induction ss generalizing d with
  | nil => simp
  | cons s ss ih =>
    rw [List.foldl_cons, ih]
    · rw [ref?_bindSite]
      by_cases hs : s.path = p
      · subst hs
        have hr : (d.ref? s.path).map (reg.rebind context scope s) =
            (d.ref? s.path).map fun r => reg.rebind context scope (.of s.path r) r := by
          refine Option.map_congr fun r hr => ?_
          rw [← h s List.mem_cons_self r hr]
        rw [if_pos rfl, hr, Option.map_map]
        simp [Function.comp_def, of_rebind]
      · simp [hs, Ne.symm hs]
    · intro s' hs' r hr
      rw [ref?_bindSite] at hr
      split at hr
      next =>
        obtain ⟨r', hr', rfl⟩ := Option.map_eq_some_iff.mp hr
        rw [of_rebind]
        exact h s' (List.mem_cons_of_mem _ hs') r' hr'
      next => exact h s' (List.mem_cons_of_mem _ hs') r hr

theorem mem_sites_iff {s : RefSite} :
    s ∈ d.sites ↔ ∃ r, d.ref? s.path = some r ∧ s = .of s.path r := by
  rw [Document.sites, (List.mergeSort_perm _ _).mem_iff]
  simp only [List.mem_map, Prod.exists, Document.mem_refs_iff]
  constructor
  · rintro ⟨p, r, hr, rfl⟩
    exact ⟨r, hr, rfl⟩
  · rintro ⟨r, hr, hs⟩
    exact ⟨s.path, r, hr, hs.symm⟩

/-- Resolving binds each reference of the document whose site has a binding. -/
theorem ref?_resolve (p : RefPath) :
    (reg.resolve context d d.sites).document.ref? p =
      (d.ref? p).map fun r => reg.rebind context d (.of p r) r := by
  have h : ∀ s ∈ d.sites, ∀ r, d.ref? s.path = some r → s = .of s.path r := by
    intro s hs r hr
    obtain ⟨r', hr', heq⟩ := mem_sites_iff.mp hs
    rw [hr] at hr'
    cases hr'
    exact heq
  refine (ref?_foldl_bindSite d d.sites h p).trans ?_
  split
  next => rfl
  next hp =>
    cases hr : d.ref? p with
    | none => rfl
    | some r => exact absurd (List.mem_map.mpr ⟨.of p r, mem_sites_iff.mpr ⟨r, hr, rfl⟩, rfl⟩) hp

theorem foldl_bindSite_induction {P : Document → Prop} (scope : Document) (ss : List RefSite)
    (hP : ∀ d p b, P d → P (d.bind p b)) (h : P d) :
    P (ss.foldl (Document.bindSite reg context scope) d) := by
  induction ss generalizing d with
  | nil => exact h
  | cons s ss ih =>
    refine ih ?_
    unfold Document.bindSite
    split
    · exact hP _ _ _ h
    · exact h

theorem kinds_resolve (reg : Registry) (context : String) (d : Document) (ss : List RefSite) :
    (reg.resolve context d ss).document.kinds = d.kinds :=
  foldl_bindSite_induction d ss (fun e p b he => (e.kinds_bind p b).trans he) rfl

theorem keyed_resolve (h : d.Keyed) (ss : List RefSite) :
    (reg.resolve context d ss).document.Keyed :=
  foldl_bindSite_induction d ss (fun _ p b he => he.bind p b) h

/-! ### When nothing is reported -/

theorem failed_eq_nil_iff (ss : List RefSite) :
    (reg.resolve context d ss).failed = [] ↔ (reg.resolve context d ss).diagnostics = [] := by
  simp only [resolve, List.filterMap_eq_nil_iff]
  refine forall₂_congr fun s _ => ?_
  cases reg.bindingFor context d s <;> simp

theorem diagnostics_resolve_eq_nil_iff :
    (reg.resolve context d d.sites).diagnostics = [] ↔
      ∀ p r, d.ref? p = some r → ∃ b, reg.bindingFor context d (.of p r) = .ok b := by
  simp only [resolve, List.filterMap_eq_nil_iff]
  constructor
  · intro h p r hr
    have := h (.of p r) (mem_sites_iff.mpr ⟨r, hr, rfl⟩)
    cases hb : reg.bindingFor context d (.of p r) with
    | ok b => exact ⟨b, rfl⟩
    | error e => simp [hb] at this
  · intro h s hs
    obtain ⟨r, hr, heq⟩ := mem_sites_iff.mp hs
    obtain ⟨b, hb⟩ := h s.path r hr
    rw [heq, hb]

end Registry

end SchemaLang
