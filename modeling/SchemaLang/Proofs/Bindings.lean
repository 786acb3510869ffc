import SchemaLang.Proofs.Reader.Ensures
import SchemaLang.Proofs.Soundness

/-! Binding references one after the other. Each name is looked up in the document as it has been
bound so far, and since binding changes neither names nor kinds, it stands for what it stood for
when the document was read. So what a site gets depends on its name alone, whichever sites are
bound before it, and binding the same sites again changes nothing. -/

namespace SchemaLang

theorem Table.slot?_of_getElem?_entries {α : Type} {t : Table α} {k : String} {v : α} {i : Nat}
    (h : t.entries[i]? = some (k, v)) : t.slot? k = some i := by
  have hget : t.get? k = some v := get?_eq_some_iff.mpr (List.mem_of_getElem? h)
  have hsome : (t.slot? k).isSome = true := by rw [slot?_isSome, hget, Option.isSome_some]
  obtain ⟨j, hj⟩ := Option.isSome_iff_exists.mp hsome
  obtain ⟨w, hw⟩ := getElem?_entries_of_slot? hj
  have hlt : i < t.keys.length := by
    rw [keys, List.length_map]
    exact (List.getElem?_eq_some_iff.mp h).1
  have hkeys : t.keys[i]? = t.keys[j]? := by simp [keys, h, hw]
  rw [hj, (List.getElem?_inj hlt t.distinct).mp hkeys]

namespace Registry

variable {reg : Registry} {context : String} {d e : Document} {n : String} {b : Binding}
  {s : RefSite}

/-! ### What a name stands for -/

/-- A name stands for a built-in scalar, or else for the type of that name in the document, or else
for the type of that name that the registry holds in the document `context`. -/
inductive StandsFor (reg : Registry) (context : String) (d : Document) (n : String) :
    Binding → Prop
  | builtin (hn : isBuiltinScalar n = true) : StandsFor reg context d n .builtin
  | here {slot : Nat} {t : TypeDefinition} (hn : isBuiltinScalar n = false)
      (ht : d.types.entries[slot]? = some (n, t)) : StandsFor reg context d n (.here slot t.kind)
  | stored {t : TypeDefinition} (hn : isBuiltinScalar n = false) (hd : n ∉ d.types.keys)
      (ht : reg.type? context n = some t) : StandsFor reg context d n (.stored context t.kind)

theorem StandsFor.lookup_eq (h : reg.StandsFor context d n b) :
    reg.lookup context d n = some b := by
  cases h with
  | builtin hn => simp [lookup, hn]
  | here hn ht =>
    have hget := Table.get?_eq_some_iff.mpr (List.mem_of_getElem? ht)
    obtain ⟨slot, hs, hl⟩ := reg.lookup_of_get? context hn hget
    rw [Table.slot?_of_getElem?_entries ht] at hs
    rw [hl, Option.some.inj hs]
  | stored hn hd ht =>
    rw [lookup_of_get?_eq_none hn (Table.get?_eq_none_iff.mpr hd), ht]
    rfl

theorem lookup_eq_some_iff : reg.lookup context d n = some b ↔ reg.StandsFor context d n b := by
  refine ⟨fun h => ?_, StandsFor.lookup_eq⟩
  cases hn : isBuiltinScalar n with
  | true =>
    rw [lookup, hn, if_pos rfl] at h
    exact Option.some.inj h ▸ .builtin hn
  | false =>
    cases hget : d.get? n with
    | none =>
      rw [lookup_of_get?_eq_none hn hget] at h
      obtain ⟨t, ht, rfl⟩ := Option.map_eq_some_iff.mp h
      exact .stored hn (Table.get?_eq_none_iff.mp hget) ht
    | some t =>
      obtain ⟨slot, hs, hl⟩ := reg.lookup_of_get? context hn hget
      obtain ⟨u, hu⟩ := Table.getElem?_entries_of_slot? hs
      have htu : some t = some u :=
        hget.symm.trans (Table.get?_eq_some_iff.mpr (List.mem_of_getElem? hu))
      rw [← Option.some.inj htu] at hu
      rw [hl] at h
      exact Option.some.inj h ▸ .here hn hu

instance : Decidable (∃ b, reg.StandsFor context d n b) :=
  decidable_of_iff ((reg.lookup context d n).isSome = true) (by
    simp only [Option.isSome_iff_exists, lookup_eq_some_iff])

/-- The binding for a site is what its name stands for. Only an interface may stand where a type
promises to implement one. -/
structure Suits (reg : Registry) (context : String) (d : Document) (s : RefSite) (b : Binding) :
    Prop where
  standsFor : reg.StandsFor context d s.name b
  interface : s.path.isInterface = true → b.kind = .interface

/-- There is no binding for a site. -/
def Excepted (reg : Registry) (context : String) (d : Document) (s : RefSite) : Prop :=
  ∀ b, ¬ reg.Suits context d s b

/-- What is reported of a site for which there is no binding. -/
def exception (reg : Registry) (context : String) (d : Document) (s : RefSite) : Diagnostic where
  cause := if ∃ b, reg.StandsFor context d s.name b then .notAnInterface s.name
    else .undefinedType s.name context
  location := s.location

theorem bindingFor_eq_ok_iff :
    reg.bindingFor context d s = .ok b ↔ reg.Suits context d s b := by
  have hsuits : reg.Suits context d s b ↔
      reg.lookup context d s.name = some b ∧ (s.path.isInterface = true → b.kind = .interface) := by
    rw [lookup_eq_some_iff]
    exact ⟨fun h => ⟨h.standsFor, h.interface⟩, fun h => ⟨h.1, h.2⟩⟩
  rw [hsuits, bindingFor]
  cases reg.lookup context d s.name with
  | none => simp
  | some c =>
    dsimp only
    split
    next h =>
      simp only [reduceCtorEq, Option.some.injEq, false_iff, not_and]
      rintro rfl hkind
      exact h.2 (hkind h.1)
    next h =>
      simp only [Except.ok.injEq, Option.some.injEq, iff_self_and]
      rintro rfl hpath
      exact Classical.byContradiction fun hkind => h ⟨hpath, hkind⟩

theorem bindingFor_eq_error (h : reg.Excepted context d s) :
    reg.bindingFor context d s = .error (reg.exception context d s) := by
  cases hb : reg.bindingFor context d s with
  | ok b => exact absurd (bindingFor_eq_ok_iff.mp hb) (h b)
  | error x =>
    unfold bindingFor at hb
    split at hb
    next hl =>
      have hnone : ¬ ∃ b, reg.StandsFor context d s.name b := by
        rintro ⟨b, hstands⟩
        rw [hstands.lookup_eq] at hl
        cases hl
      rw [exception, if_neg hnone]
      exact hb.symm
    next b hl =>
      rw [exception, if_pos ⟨b, lookup_eq_some_iff.mp hl⟩]
      split at hb
      · exact hb.symm
      · cases hb

theorem excepted_iff : reg.Excepted context d s ↔
    (reg.bindingFor context d s).toOption = none := by
  cases hb : reg.bindingFor context d s with
  | ok b => simp [Excepted, ← bindingFor_eq_ok_iff, hb, Except.toOption]
  | error x => simp [Excepted, ← bindingFor_eq_ok_iff, hb, Except.toOption]

instance : DecidablePred (reg.Excepted context d) := fun _ => decidable_of_iff _ excepted_iff.symm

/-- What is kept of the sites that have no binding, in the order of the sites. -/
theorem filterMap_bindingFor {α : Type} (f : RefSite → Diagnostic → α) (ss : List RefSite) :
    (ss.filterMap fun s =>
      match reg.bindingFor context d s with
      | .ok _ => none
      | .error x => some (f s x)) =
    (ss.filter (reg.Excepted context d ·)).map fun s => f s (reg.exception context d s) := by
  induction ss with
  | nil => rfl
  | cons s ss ih =>
    by_cases hs : reg.Excepted context d s
    · rw [List.filterMap_cons, bindingFor_eq_error hs, List.filter_cons, if_pos (decide_eq_true hs),
        List.map_cons, ← ih]
    · rw [List.filterMap_cons, List.filter_cons, if_neg (by simpa using hs), ← ih]
      rw [excepted_iff] at hs
      cases hb : reg.bindingFor context d s with
      | ok b => rfl
      | error x => simp [hb, Except.toOption] at hs

/-! ### In turn -/

/-- The next site bound, or noted if there is no binding for it. Its name is looked up in the
document as it has been bound so far. -/
def bindNext (reg : Registry) (context : String) (r : Resolution) (s : RefSite) : Resolution :=
  match reg.bindingFor context r.document s with
  | .ok b => { r with document := r.document.bind s.path (some b) }
  | .error x => { r with diagnostics := r.diagnostics ++ [x], failed := r.failed ++ [s.path] }

/-- Binds the references at the sites one after the other. -/
def bindInTurn (reg : Registry) (context : String) (d : Document) (ss : List RefSite) :
    Resolution := ss.foldl (reg.bindNext context) ⟨d, [], []⟩

theorem lookup_of_kinds (h : e.kinds = d.kinds) (n : String) :
    reg.lookup context e n = reg.lookup context d n := by
  unfold lookup
  rw [Document.slot?_of_kinds h n]
  have hkind := Document.kind_get?_of_kinds h n
  cases he : e.get? n with
  | none =>
    rw [he, Option.map_none, eq_comm, Option.map_eq_none_iff] at hkind
    rw [hkind]
  | some t =>
    rw [he, Option.map_some, eq_comm, Option.map_eq_some_iff] at hkind
    obtain ⟨u, hu, hut⟩ := hkind
    rw [hu]
    cases d.types.slot? n <;> simp [hut]

theorem bindingFor_of_kinds (h : e.kinds = d.kinds) (s : RefSite) :
    reg.bindingFor context e s = reg.bindingFor context d s := by
  rw [bindingFor, lookup_of_kinds h, bindingFor]

/-- The bindings so far make no difference to the names that are looked up. -/
theorem foldl_bindNext (ss : List RefSite) (r : Resolution) (h : r.document.kinds = d.kinds) :
    ss.foldl (reg.bindNext context) r =
      ⟨ss.foldl (Document.bindSite reg context d) r.document,
        r.diagnostics ++ (reg.resolve context d ss).diagnostics,
        r.failed ++ (reg.resolve context d ss).failed⟩ := by
  induction ss generalizing r with
  | nil => simp [resolve]
  | cons s ss ih =>
    have hkinds : (reg.bindNext context r s).document.kinds = d.kinds := by
      unfold bindNext
      split
      · exact (Document.kinds_bind _ _ _).trans h
      · exact h
    rw [List.foldl_cons, ih _ hkinds, List.foldl_cons]
    unfold bindNext
    rw [bindingFor_of_kinds h]
    cases hb : reg.bindingFor context d s with
    | ok b => simp [resolve, Document.bindSite, hb]
    | error x => simp [resolve, Document.bindSite, hb]

theorem bindInTurn_eq (reg : Registry) (context : String) (d : Document) (ss : List RefSite) :
    reg.bindInTurn context d ss = reg.resolve context d ss := by
  rw [bindInTurn, foldl_bindNext ss _ rfl]
  rfl

/-! ### Sites of the document itself -/

/-- Sites of a document describe the references that they lead to. -/
theorem of_mem_sites {ss : List RefSite} (h : ∀ s ∈ ss, s ∈ d.sites) :
    ∀ s ∈ ss, ∀ r, d.ref? s.path = some r → s = .of s.path r := by
  intro s hs r hr
  obtain ⟨x, hx, heq⟩ := mem_sites_iff.mp (h s hs)
  rw [hr] at hx
  rw [Option.some.inj hx]
  exact heq

theorem ref?_resolve_sites (reg : Registry) (context : String) {ss : List RefSite}
    (h : ∀ s ∈ ss, s ∈ d.sites) (p : RefPath) :
    (reg.resolve context d ss).document.ref? p =
      if p ∈ ss.map RefSite.path then (d.ref? p).map fun r => reg.rebind context d (.of p r) r
      else d.ref? p :=
  ref?_foldl_bindSite d ss (of_mem_sites h) p

/-- What was bound once stays as it is. -/
theorem resolve_again {ss : List RefSite} (h : ∀ s ∈ ss, s ∈ d.sites) :
    reg.resolve context (reg.resolve context d ss).document ss = reg.resolve context d ss := by
  have hkinds := reg.kinds_resolve context d ss
  have href := ref?_resolve_sites reg context h
  generalize he : (reg.resolve context d ss).document = e at hkinds href ⊢
  have hdescribes : ∀ s ∈ ss, ∀ r, e.ref? s.path = some r → s = .of s.path r := by
    intro s hs r hr
    rw [href, if_pos (List.mem_map_of_mem hs)] at hr
    obtain ⟨x, hx, rfl⟩ := Option.map_eq_some_iff.mp hr
    rw [of_rebind]
    exact of_mem_sites h s hs x hx
  have hsame : ss.foldl (Document.bindSite reg context d) e = e := by
    apply Document.ext_ref?
    · have hbind : ∀ (c : Document) p b, (c.bind p b).relabel .unbind = c.relabel .unbind :=
        fun c p b => Document.relabel_modifyRef (f := fun r => { r with binding := b })
          (fun _ => rfl) c p
      exact foldl_bindSite_induction (P := fun c => c.relabel .unbind = e.relabel .unbind) d ss
        (fun c p b hc => (hbind c p b).trans hc) rfl
    · intro p
      rw [ref?_foldl_bindSite d ss hdescribes, href]
      split
      next =>
        rw [Option.map_map]
        apply Option.map_congr
        intro r _
        rw [Function.comp, of_rebind, rebind_rebind]
      next => rfl
  rw [← bindInTurn_eq, bindInTurn, foldl_bindNext ss ⟨e, [], []⟩ hkinds, hsame, ← he]
  rfl

/-- Binding references one after the other binds each to what its name stands for in the document
as it was read. A reference is bound if its site is among those given, unless its name stands for
nothing or for no interface where one has to stand; these exceptions alone are reported, in the
order of the sites. Nothing else of the document changes, and a second time nothing at all. -/
theorem bindInTurn_exact (reg : Registry) (context source name : String) (ss : List RefSite)
    (hss : ∀ s ∈ ss, s ∈ (parse source name).sites) :
    let d := (parse source name).document
    let r := reg.bindInTurn context d ss
    r = reg.resolve context d ss ∧
      (∀ p x, d.ref? p = some x → x.binding = none ∧ ∃ y, r.document.ref? p = some y ∧
        ∀ b, y.binding = some b ↔
          p ∈ ss.map (·.path) ∧ reg.Suits context d (.of p x) b) ∧
      r.document.relabel .unbind = d ∧
      r.failed = (ss.filter (reg.Excepted context d ·)).map (·.path) ∧
      r.diagnostics = (ss.filter (reg.Excepted context d ·)).map (reg.exception context d) ∧
      reg.bindInTurn context r.document ss = r := by
  intro d r
  have hr : r = reg.resolve context d ss := bindInTurn_eq reg context d ss
  have hd : d.WellFormed := wellFormed_parse source name
  refine ⟨hr, fun p x hx => ⟨hd.binding hx, ?_⟩, ?_, ?_, ?_, ?_⟩
  · have hbinding := hd.binding hx
    rw [hr, ref?_resolve_sites reg context hss, hx]
    split
    next hp =>
      refine ⟨_, rfl, fun b => ?_⟩
      simp only [hp, true_and, ← bindingFor_eq_ok_iff, rebind]
      cases hb : reg.bindingFor context d (.of p x) with
      | ok c => simp
      | error e => simp [hbinding]
    next hp =>
      refine ⟨x, rfl, fun b => ?_⟩
      simp [hp, hbinding]
  · rw [hr, relabel_resolve reg context d ss fun _ _ => rfl]
    exact hd.relabel_unbind
  · rw [hr]
    exact filterMap_bindingFor (fun s _ => s.path) ss
  · rw [hr]
    exact filterMap_bindingFor (fun _ x => x) ss
  · rw [hr, bindInTurn_eq]
    exact resolve_again hss

/-- An interface that the document makes a union of its own, though the registry has an interface of
that name: it is excepted each time that it is given, and a type that the registry holds is
bound. -/
theorem bindInTurn_exact_shadowed :
    let source := "type A implements B {f: S g: X}\nunion B"
    let d := (parse source "D").document
    let t (name : String) (body : TypeBody) : TypeDefinition :=
      ⟨none, ⟨name, ⟨.start, .empty 0⟩⟩, [], body⟩
    let reg := ((empty "D").setType "C" "B" (t "B" (.interface ⟨[], ∅⟩))).setType "C" "S"
      (t "S" .scalar)
    let b : RefSite := ⟨.type 0 (.interface 0), "B", ⟨⟨1, 19⟩, ⟨18, 19⟩⟩⟩
    let s : RefSite := ⟨.type 0 (.field 0), "S", ⟨⟨1, 25⟩, ⟨24, 25⟩⟩⟩
    let x : RefSite := ⟨.type 0 (.field 1), "X", ⟨⟨1, 30⟩, ⟨29, 30⟩⟩⟩
    let r := reg.bindInTurn "C" d [b, x, s, b]
    (∀ y ∈ [b, x, s, b], y ∈ (parse source "D").sites) ∧ r.failed = [b.path, x.path, b.path] ∧
      r.diagnostics = [⟨.notAnInterface "B", b.location⟩, ⟨.undefinedType "X" "C", x.location⟩,
        ⟨.notAnInterface "B", b.location⟩] ∧
      ∃ y, r.document.ref? s.path = some y ∧ y.binding = some (.stored "C" .scalar) := by
  intro source d t reg b s x r
  let e : Document := ((Document.empty "D").define (.type (t "A" (.object ⟨[], ∅⟩)))).define
    (.type (t "B" (.union [])))
  have hd : (d.refs, d.kinds) =
      ([b, s, x].map fun y => (y.path, .named y.name y.location), e.kinds) := by
    change ((parse "type A implements B {f: S g: X}\nunion B" "D").document.refs,
      (parse "type A implements B {f: S g: X}\nunion B" "D").document.kinds) = _
    decide +kernel
  obtain ⟨hrefs, hkinds⟩ := Prod.mk.inj hd
  have href : ∀ y ∈ [b, x, s, b], d.ref? y.path = some (.named y.name y.location) := by
    intro y hy
    rw [← Document.mem_refs_iff, hrefs]
    refine List.mem_map_of_mem ?_
    simp only [List.mem_cons, List.not_mem_nil, or_false] at hy ⊢
    tauto
  have hss : ∀ y ∈ [b, x, s, b], y ∈ (parse source "D").sites := fun y hy =>
    mem_sites_iff.mpr ⟨_, href y hy, rfl⟩
  have hs : reg.Suits "C" d s (.stored "C" .scalar) :=
    bindingFor_eq_ok_iff.mp ((bindingFor_of_kinds hkinds s).trans rfl)
  have hfault : ∀ y c, reg.bindingFor "C" e y = .error c →
      reg.Excepted "C" d y ∧ reg.exception "C" d y = c := by
    intro y c hc
    rw [← bindingFor_of_kinds hkinds] at hc
    have hy : reg.Excepted "C" d y := excepted_iff.mpr (by rw [hc]; rfl)
    exact ⟨hy, Except.error.inj ((bindingFor_eq_error hy).symm.trans hc)⟩
  obtain ⟨hb, hfaultb⟩ := hfault b _ rfl
  obtain ⟨hx, hfaultx⟩ := hfault x _ rfl
  have hexcepted : [b, x, s, b].filter (reg.Excepted "C" d ·) = [b, x, b] := by
    have hs : ¬ reg.Excepted "C" d s := fun h => h _ hs
    simp [hb, hx, hs]
  obtain ⟨-, hbound, -, hfailed, hdiagnostics, -⟩ := bindInTurn_exact reg "C" source "D" _ hss
  obtain ⟨-, y, hy, hbinding⟩ := hbound s.path _ (href s (by simp))
  refine ⟨hss, hfailed.trans (by rw [hexcepted]; rfl), ?_, y, hy, ?_⟩
  · refine hdiagnostics.trans ?_
    rw [hexcepted, List.map_cons, List.map_cons, List.map_cons, List.map_nil, hfaultb, hfaultx]
  · exact (hbinding _).mpr ⟨by simp, hs⟩

end Registry

end SchemaLang
