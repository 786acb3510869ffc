import Mathlib.Data.List.Sigma
import SchemaLang.Proofs.Document.Rearranged
import SchemaLang.Proofs.Resolution

/-! The ways to the references of a document agree. No path is listed twice, a path leads to a
reference exactly if it is listed, and a visit of a type comes to the references at the paths that
are listed for it, in their order, and changes nothing besides them. -/

namespace SchemaLang

/-! ### No path twice -/

section Numbered

variable {α β : Type} {xs : List α}

theorem List.pairwise_zipIdx_snd (xs : List α) : xs.zipIdx.Pairwise fun e e' => e.2 ≠ e'.2 :=
  List.pairwise_map.mp (List.nodup_zipIdx_map_snd xs)

theorem List.nodup_map_zipIdx {f : α × Nat → β} (h : ∀ e e', f e = f e' → e.2 = e'.2) :
    (xs.zipIdx.map f).Nodup :=
  List.pairwise_map.mpr ((List.pairwise_zipIdx_snd xs).imp fun hne heq => hne (h _ _ heq))

theorem List.nodup_flatMap_zipIdx {f : α × Nat → List β} {index : β → Option Nat}
    (hf : ∀ e ∈ xs.zipIdx, (f e).Nodup) (hindex : ∀ e, ∀ b ∈ f e, index b = some e.2) :
    (xs.zipIdx.flatMap f).Nodup := by
  refine List.nodup_flatMap.mpr ⟨hf, (List.pairwise_zipIdx_snd xs).imp fun hne b hb hb' => hne ?_⟩
  exact Option.some.inj ((hindex _ b hb).symm.trans (hindex _ b hb'))

end Numbered

/-- The field that a path goes through. -/
def TypePath.field? : TypePath → Option Nat
  | field i | argument i _ => some i
  | interface _ | member _ | inputField _ => none

/-- The directive definition that a path goes through. -/
def RefPath.directive? : RefPath → Option Nat
  | directiveArgument i _ => some i
  | type _ _ | rootOperation _ => none

theorem FieldSet.nodup_refs (b : FieldSet) : (b.refs.map Prod.fst).Nodup := by
  have hfield : ∀ (e : Field × Nat) (p : TypePath),
      p ∈ ((TypePath.field e.2, e.1.type) :: e.1.arguments.zipIdx.map fun a =>
        (TypePath.argument e.2 a.2, a.1.type)).map Prod.fst → p.field? = some e.2 := by
    intro e p hp
    rw [List.map_cons, List.map_map] at hp
    rcases List.mem_cons.mp hp with rfl | hp
    · rfl
    · obtain ⟨a, -, rfl⟩ := List.mem_map.mp hp
      rfl
  rw [refs, List.map_append, List.map_map, List.map_flatMap, List.nodup_append]
  refine ⟨List.nodup_map_zipIdx ?_, List.nodup_flatMap_zipIdx ?_ hfield, ?_⟩
  · rintro ⟨r, i⟩ ⟨r', i'⟩ h
    exact TypePath.interface.inj h
  · rintro ⟨f, i⟩ -
    rw [List.map_cons, List.map_map]
    refine List.nodup_cons.mpr ⟨fun h => ?_, List.nodup_map_zipIdx ?_⟩
    · obtain ⟨a, -, ha⟩ := List.mem_map.mp h
      cases ha
    · rintro ⟨a, j⟩ ⟨a', j'⟩ h
      exact (TypePath.argument.inj h).2
  · rintro p hp q hq rfl
    obtain ⟨r, -, rfl⟩ := List.mem_map.mp hp
    obtain ⟨e, -, he⟩ := List.mem_flatMap.mp hq
    cases hfield e _ he

theorem TypeDefinition.nodup_refs (t : TypeDefinition) : (t.refs.map Prod.fst).Nodup := by
  obtain ⟨description, name, directives, body⟩ := t
  cases body with
  | scalar | enum vs => exact List.nodup_nil
  | object b | interface b => exact b.nodup_refs
  | union rs =>
    rw [refs, List.map_map]
    refine List.nodup_map_zipIdx ?_
    rintro ⟨r, i⟩ ⟨r', i'⟩ h
    exact TypePath.member.inj h
  | input fs =>
    rw [refs, List.map_map]
    refine List.nodup_map_zipIdx ?_
    rintro ⟨v, i⟩ ⟨v', i'⟩ h
    exact TypePath.inputField.inj h

theorem Document.nodup_refs (d : Document) : (d.refs.map Prod.fst).Nodup := by
  have htype : ∀ (e : TypeDefinition × Nat) (p : RefPath),
      p ∈ (e.1.refs.map fun q => (RefPath.type e.2 q.1, q.2)).map Prod.fst →
        p.slot? = some e.2 := by
    intro e p hp
    rw [List.map_map] at hp
    obtain ⟨q, -, rfl⟩ := List.mem_map.mp hp
    rfl
  have hdirective : ∀ (e : DirectiveDefinition × Nat) (p : RefPath),
      p ∈ (e.1.arguments.zipIdx.map fun a =>
        (RefPath.directiveArgument e.2 a.2, a.1.type)).map Prod.fst → p.directive? = some e.2 := by
    intro e p hp
    rw [List.map_map] at hp
    obtain ⟨a, -, rfl⟩ := List.mem_map.mp hp
    rfl
  rw [refs, List.map_append, List.map_append, List.map_flatMap, List.map_flatMap, List.map_map,
    List.nodup_append, List.nodup_append]
  refine ⟨⟨List.nodup_flatMap_zipIdx ?_ htype, List.nodup_flatMap_zipIdx ?_ hdirective, ?_⟩,
    List.nodup_map_zipIdx ?_, ?_⟩
  · rintro ⟨t, i⟩ -
    have hinj : Function.Injective (RefPath.type i) := fun p q h => (RefPath.type.inj h).2
    have hnodup := t.nodup_refs.map hinj
    rw [List.map_map] at hnodup ⊢
    exact hnodup
  · rintro ⟨v, i⟩ -
    rw [List.map_map]
    refine List.nodup_map_zipIdx ?_
    rintro ⟨a, j⟩ ⟨a', j'⟩ h
    exact (RefPath.directiveArgument.inj h).2
  · rintro p hp q hq rfl
    obtain ⟨e, -, he⟩ := List.mem_flatMap.mp hp
    obtain ⟨e', -, he'⟩ := List.mem_flatMap.mp hq
    have hslot := htype e p he
    have hnone := hdirective e' p he'
    cases p with
    | type _ _ => cases hnone
    | directiveArgument _ _ | rootOperation _ => cases hslot
  · rintro ⟨op, i⟩ ⟨op', i'⟩ h
    exact RefPath.rootOperation.inj h
  · rintro p hp q hq rfl
    obtain ⟨op, -, rfl⟩ := List.mem_map.mp hq
    rcases List.mem_append.mp hp with hp | hp
    · obtain ⟨e, -, he⟩ := List.mem_flatMap.mp hp
      cases htype e _ he
    · obtain ⟨e, -, he⟩ := List.mem_flatMap.mp hp
      cases hdirective e _ he

/-! ### Visits -/

theorem FieldSet.map_snd_refs (b : FieldSet) : b.refs.map Prod.snd =
    b.interfaces ++ b.fields.values.flatMap fun fd => fd.type :: fd.arguments.map (·.type) := by
  have hfield : ∀ e : Field × Nat, ((TypePath.field e.2, e.1.type) ::
      e.1.arguments.zipIdx.map fun a => (TypePath.argument e.2 a.2, a.1.type)).map Prod.snd =
        e.1.type :: e.1.arguments.map (·.type) := by
    intro e
    rw [List.map_cons, List.map_map]
    exact congrArg (e.1.type :: ·) (List.map_zipIdx e.1.arguments (·.type) 0)
  rw [refs, List.map_append, List.map_map, List.map_flatMap]
  refine congrArg₂ (· ++ ·) ((List.map_zipIdx b.interfaces id 0).trans (List.map_id _)) ?_
  rw [← List.flatMap_zipIdx b.fields.values _ 0]
  exact congrArg (fun g => b.fields.values.zipIdx.flatMap g) (funext hfield)

theorem TypeDefinition.map_snd_refs (t : TypeDefinition) : t.refs.map Prod.snd =
    match t.body with
    | .scalar | .enum _ => []
    | .object b | .interface b => b.refs.map Prod.snd
    | .union rs => rs
    | .input fs => fs.values.map (·.type) := by
  obtain ⟨description, name, directives, body⟩ := t
  cases body with
  | scalar | enum vs | object b | interface b => rfl
  | union rs =>
    rw [refs, List.map_map]
    exact (List.map_zipIdx rs id 0).trans (List.map_id rs)
  | input fs =>
    rw [refs, List.map_map]
    exact List.map_zipIdx fs.values (·.type) 0

/-- A visit takes a step at each of the references that are listed, in their order, and changes
nothing besides them: with one reference put for all of them, it changes nothing. -/
structure Visits {σ α : Type} (f : TypeRef → StateM σ TypeRef) (refs : α → List TypeRef)
    (put : TypeRef → α → α) (visit : α → StateM σ α) : Prop where
  refs_eq : ∀ a, refs <$> visit a = (refs a).mapM f
  put_eq : ∀ r a s, put r (visit a s).1 = put r a

namespace Visits

variable {σ α : Type} {f : TypeRef → StateM σ TypeRef} {refs : α → List TypeRef}
  {put : TypeRef → α → α} {visit : α → StateM σ α}

theorem ref (f : TypeRef → StateM σ TypeRef) : Visits f (fun r => [r]) (fun r _ => r) f where
  refs_eq r := by simp
  put_eq _ _ _ := rfl

theorem list (h : Visits f refs put visit) :
    Visits f (fun as => as.flatMap refs) (fun r => List.map (put r)) (fun as => as.mapM visit) where
  refs_eq as := by
    induction as with
    | nil => simp
    | cons a as ih =>
      rw [List.flatMap_cons, List.mapM_append, ← ih, ← h.refs_eq, List.mapM_cons]
      simp
  put_eq r as := by
    induction as with
    | nil => exact fun _ => rfl
    | cons a as ih =>
      intro s
      rw [List.mapM_cons]
      exact congrArg₂ List.cons (h.put_eq r a s) (ih _)

theorem entry (h : Visits f refs put visit) : Visits f (fun e : String × α => refs e.2)
    (fun r e => (e.1, put r e.2)) (fun e => (e.1, ·) <$> visit e.2) where
  refs_eq e := by
    rw [← h.refs_eq, ← comp_map]
    rfl
  put_eq r e s := congrArg (e.1, ·) (h.put_eq r e.2 s)

theorem table (h : Visits f refs put visit) :
    Visits f (fun t => t.values.flatMap refs) (fun r => Table.map (put r)) (Table.visit visit) where
  refs_eq t := by
    have hentries := h.entry.list.refs_eq t.entries
    rw [← Table.visitEntries_eq] at hentries
    rw [Table.values, List.flatMap_map, ← hentries]
    funext s
    exact Prod.ext (List.flatMap_map ..) rfl
  put_eq r t s := by
    have hentries := h.entry.list.put_eq r t.entries s
    rw [← Table.visitEntries_eq] at hentries
    exact Table.ext hentries

theorem inputValue (f : TypeRef → StateM σ TypeRef) :
    Visits f (fun v : InputValue => [v.type]) (fun r v => { v with type := r })
      (fun v => do return { v with type := ← f v.type }) where
  refs_eq v := by simp
  put_eq _ _ _ := rfl

theorem field (f : TypeRef → StateM σ TypeRef) :
    Visits f (fun fd : Field => fd.type :: fd.arguments.map (·.type))
      (fun r fd => { fd with
        arguments := fd.arguments.map fun a => { a with type := r }
        type := r })
      (fun fd => do
        let type ← f fd.type
        let arguments ← fd.arguments.mapM fun a => do return { a with type := ← f a.type }
        return { fd with type, arguments }) where
  refs_eq fd := by
    have harguments := (inputValue f).list.refs_eq fd.arguments
    simp only [← List.map_eq_flatMap] at harguments
    rw [List.mapM_cons, ← harguments]
    simp
  put_eq r fd s := by
    have harguments := (inputValue f).list.put_eq r fd.arguments (f fd.type s).2
    exact congrArg (fun as => { fd with arguments := as, type := r }) harguments

theorem fieldSet (f : TypeRef → StateM σ TypeRef) :
    Visits f (fun b => b.refs.map Prod.snd) (fun r => FieldSet.mapTypes fun _ => r)
      (FieldSet.visitRefs f) where
  refs_eq b := by
    have hfields := (field f).table.refs_eq b.fields
    simp only [FieldSet.map_snd_refs]
    rw [List.mapM_append, ← hfields]
    simp [FieldSet.visitRefs]
  put_eq r b s := by
    have hinterfaces := (ref f).list.put_eq r b.interfaces s
    have hfields := (field f).table.put_eq r b.fields (b.interfaces.mapM f s).2
    exact congrArg₂ FieldSet.mk hinterfaces hfields

theorem typeDefinition (f : TypeRef → StateM σ TypeRef) :
    Visits f (fun t => t.refs.map Prod.snd) (fun r => TypeDefinition.mapTypes fun _ => r)
      (TypeDefinition.visitRefs f) where
  refs_eq t := by
    obtain ⟨description, name, directives, body⟩ := t
    cases body with
    | scalar | enum vs => simp [TypeDefinition.refs, TypeDefinition.visitRefs]
    | object b | interface b =>
      have hfields := (fieldSet f).refs_eq b
      simpa [TypeDefinition.refs, TypeDefinition.visitRefs] using hfields
    | union rs => simp [TypeDefinition.map_snd_refs, TypeDefinition.visitRefs]
    | input fs =>
      have hfields := (inputValue f).table.refs_eq fs
      simp only [← List.map_eq_flatMap] at hfields
      simpa [TypeDefinition.map_snd_refs, TypeDefinition.visitRefs] using hfields
  put_eq r t s := by
    obtain ⟨description, name, directives, body⟩ := t
    have hbody : ∀ b b' : TypeBody, b = b' → TypeDefinition.mk description name directives b =
        TypeDefinition.mk description name directives b' := fun _ _ => congrArg _
    cases body with
    | scalar | enum vs => rfl
    | object b => exact hbody _ _ (congrArg TypeBody.object ((fieldSet f).put_eq r b s))
    | interface b => exact hbody _ _ (congrArg TypeBody.interface ((fieldSet f).put_eq r b s))
    | union rs => exact hbody _ _ (congrArg TypeBody.union ((ref f).list.put_eq r rs s))
    | input fs => exact hbody _ _ (congrArg TypeBody.input ((inputValue f).table.put_eq r fs s))

end Visits

/-! ### Sites -/

theorem FieldSet.refs_mapTypes (f : TypeRef → TypeRef) (b : FieldSet) :
    (b.mapTypes f).refs = b.refs.map fun e => (e.1, f e.2) := by
  simp only [refs, mapTypes, Table.values_map, List.zipIdx_map, List.map_append, List.map_map,
    List.flatMap_map, List.map_flatMap, List.map_cons, Prod.map_fst, Prod.map_snd]
  rfl

namespace TypeDefinition

variable {d : Document} {t : TypeDefinition} {slot : Nat}

theorem refs_mapTypes (f : TypeRef → TypeRef) (t : TypeDefinition) :
    (t.mapTypes f).refs = t.refs.map fun e => (e.1, f e.2) := by
  obtain ⟨description, name, directives, body⟩ := t
  cases body with
  | scalar | enum vs => rfl
  | object b | interface b => exact b.refs_mapTypes f
  | union rs =>
    simp only [refs, mapTypes, TypeBody.mapTypes, List.zipIdx_map, List.map_map]
    rfl
  | input fs =>
    simp only [refs, mapTypes, TypeBody.mapTypes, Table.values_map, List.zipIdx_map, List.map_map]
    rfl

/-- Types that differ in their references at most have references at the same paths. -/
theorem map_fst_refs_congr {u : TypeDefinition} {f : TypeRef → TypeRef}
    (h : t.mapTypes f = u.mapTypes f) : t.refs.map Prod.fst = u.refs.map Prod.fst := by
  have hfst : ∀ t : TypeDefinition, (t.mapTypes f).refs.map Prod.fst = t.refs.map Prod.fst := by
    intro t
    rw [refs_mapTypes, List.map_map]
    rfl
  rw [← hfst t, h, hfst u]

theorem map_path_sites (t : TypeDefinition) (slot : Nat) :
    (t.sites slot).map (·.path) = (t.refs.map Prod.fst).map (.type slot) := by
  rw [sites, List.map_map, List.map_map]
  rfl

theorem nodup_sites (t : TypeDefinition) (slot : Nat) : ((t.sites slot).map (·.path)).Nodup := by
  rw [map_path_sites]
  exact t.nodup_refs.map fun p q h => (RefPath.type.inj h).2

/-- The sites of a type lead to its references. -/
theorem map_ref?_sites (h : d.types.at? slot = some t) :
    (t.sites slot).map (fun s => d.ref? s.path) = (t.refs.map Prod.snd).map some := by
  rw [sites, List.map_map, List.map_map]
  refine List.map_congr_left fun e he => ?_
  have href : t.ref? e.1 = some e.2 := mem_refs_iff.mp he
  exact (Option.bind_eq_some_iff.mpr ⟨t, h, href⟩ : d.ref? (.type slot e.1) = some e.2)

/-- The sites of a type are those of the document that stand in its slot. -/
theorem mem_sites_iff (h : d.types.at? slot = some t) (s : RefSite) :
    s ∈ t.sites slot ↔ s ∈ d.sites ∧ s.path.slot? = some slot := by
  rw [Registry.mem_sites_iff, sites, List.mem_map]
  constructor
  · rintro ⟨⟨p, r⟩, he, rfl⟩
    have href : t.ref? p = some r := mem_refs_iff.mp he
    exact ⟨⟨r, Option.bind_eq_some_iff.mpr ⟨t, h, href⟩, rfl⟩, rfl⟩
  · rintro ⟨⟨r, hr, hs⟩, hslot⟩
    obtain ⟨path, name, location⟩ := s
    cases path with
    | type i p =>
      obtain rfl : i = slot := Option.some.inj hslot
      obtain ⟨u, hu, hp⟩ := Option.bind_eq_some_iff.mp hr
      obtain rfl : t = u := Option.some.inj (h.symm.trans hu)
      exact ⟨(p, r), mem_refs_iff.mpr hp, hs.symm⟩
    | directiveArgument _ _ | rootOperation _ => cases hslot

/-- What a visit of the references of a type does, seen through the sites of the type. -/
theorem visitRefs_sites {σ : Type} (h : d.types.at? slot = some t)
    (f : TypeRef → StateM σ TypeRef) (s : σ) :
    let visited := t.visitRefs f s
    let results := (t.refs.map Prod.snd).mapM f s
    let after := { d with types := d.types.modify slot fun _ => visited.1 }
    visited.2 = results.2 ∧ (t.sites slot).map (fun s => after.ref? s.path) = results.1.map some ∧
      ∀ r, visited.1.mapTypes (fun _ => r) = t.mapTypes fun _ => r := by
  intro visited results after
  have hput := fun r => (Visits.typeDefinition f).put_eq r t s
  have hrefs : (visited.1.refs.map Prod.snd, visited.2) = results :=
    congrFun ((Visits.typeDefinition f).refs_eq t) s
  -- any reference put for all of them shows that the paths are the same as before
  have hpaths : visited.1.refs.map Prod.fst = t.refs.map Prod.fst :=
    map_fst_refs_congr (hput (.named "" ⟨.start, .empty 0⟩))
  have hafter : after.types.at? slot = some visited.1 := by
    rw [Table.at?_modify, if_pos rfl, h]
    rfl
  refine ⟨congrArg Prod.snd hrefs, ?_, hput⟩
  have hsites : (t.sites slot).map (·.path) = (visited.1.sites slot).map (·.path) := by
    rw [map_path_sites, map_path_sites, hpaths]
  have hmap : ∀ ss : List RefSite, ss.map (fun s => after.ref? s.path) =
      (ss.map (·.path)).map after.ref? := fun ss => by rw [List.map_map]; rfl
  rw [hmap, hsites, ← hmap, map_ref?_sites hafter, ← congrArg Prod.fst hrefs]

end TypeDefinition

namespace Document

theorem pairwise_sites (d : Document) :
    d.sites.Pairwise fun s t => s.position.le t.position = true := by
  rw [sites]
  refine List.pairwise_mergeSort ?_ ?_ _
  · exact fun s t u => Position.le_trans
  · exact fun s t => Position.le_total s.position t.position

/-- The ways to the references of a document agree. The sites have distinct paths, lead to the
references that they describe, and leave none out; they are sorted by position. A visit of a type
takes a step at each reference that its sites lead to, in their order, and changes these alone.
Changing the reference at one path leaves those at the others. -/
theorem sites_agree (d : Document) :
    (d.sites.map (·.path)).Nodup ∧
      (∀ s ∈ d.sites, ∃ r, d.ref? s.path = some r ∧ s.name = r.name ∧ s.location = r.location) ∧
      (∀ p r, d.ref? p = some r → p ∈ d.sites.map (·.path)) ∧
      d.sites.Pairwise (fun s t => s.position.le t.position = true) ∧
      (∀ slot t, d.types.at? slot = some t →
        ((t.sites slot).map (·.path)).Nodup ∧
        (∀ s, s ∈ t.sites slot ↔ s ∈ d.sites ∧ s.path.slot? = some slot) ∧
        ∃ rs : List TypeRef, (t.sites slot).map (fun s => d.ref? s.path) = rs.map some ∧
          ∀ {σ : Type} (f : TypeRef → StateM σ TypeRef) (s : σ),
            let visited := t.visitRefs f s
            let results := rs.mapM f s
            let after := { d with types := d.types.modify slot fun _ => visited.1 }
            visited.2 = results.2 ∧
              (t.sites slot).map (fun s => after.ref? s.path) = results.1.map some ∧
              ∀ r, visited.1.mapTypes (fun _ => r) = t.mapTypes fun _ => r) ∧
      ∀ f p q, (d.modifyRef f p).ref? q = if p = q then (d.ref? q).map f else d.ref? q := by
  have hperm := List.mergeSort_perm (d.refs.map fun e => RefSite.of e.1 e.2)
    fun s t => s.position.le t.position
  refine ⟨?_, fun s hs => ?_, fun p r hr => ?_, ?_, fun slot t ht => ?_, d.ref?_modifyRef⟩
  · have hpaths := (hperm.map (·.path)).nodup_iff
    rw [List.map_map] at hpaths
    exact hpaths.mpr d.nodup_refs
  · obtain ⟨r, hr, heq⟩ := Registry.mem_sites_iff.mp hs
    exact ⟨r, hr, congrArg RefSite.name heq, congrArg RefSite.location heq⟩
  · exact List.mem_map.mpr ⟨.of p r, Registry.mem_sites_iff.mpr ⟨r, hr, rfl⟩, rfl⟩
  · exact d.pairwise_sites
  · exact ⟨t.nodup_sites slot, TypeDefinition.mem_sites_iff ht, _, TypeDefinition.map_ref?_sites ht,
      TypeDefinition.visitRefs_sites ht⟩

/-- `type A implements B { f(x: C): D }`: the type of the argument stands before that of the field
and is visited after it. -/
theorem sites_agree_argument :
    let r (name : String) (column : Nat) : TypeRef :=
      .named name ⟨⟨1, column⟩, ⟨column - 1, column⟩⟩
    let n (name : String) : Name := ⟨name, ⟨.start, .empty 0⟩⟩
    let x : InputValue := ⟨none, n "x", r "C" 28, none, []⟩
    let f : Field := ⟨none, n "f", [x], r "D" 32, []⟩
    let t : TypeDefinition := ⟨none, n "A", [], .object ⟨[r "B" 19], Table.insert ∅ "f" f⟩⟩
    let d : Document := ⟨"d", none, ∅, Table.insert ∅ "A" t⟩
    d.types.at? 0 = some t ∧
      (t.visitRefs (fun r s => (r, s ++ [r.name])) []).2 = ["B", "D", "C"] ∧
      d.sites.Pairwise (fun s t => s.position.le t.position = true) := by
  intro r n x f t d
  obtain ⟨-, -, -, hsorted, hvisit, -⟩ := sites_agree d
  have ht : d.types.at? 0 = some t := rfl
  obtain ⟨-, -, rs, hrs, hstep⟩ := hvisit 0 t ht
  have heq : [r "B" 19, r "D" 32, r "C" 28] = rs :=
    (List.map_inj_right fun _ _ => Option.some.inj).mp hrs
  refine ⟨ht, ?_, hsorted⟩
  rw [(hstep _ []).1, ← heq]
  rfl

end Document

end SchemaLang
