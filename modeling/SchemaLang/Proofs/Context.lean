import SchemaLang.Proofs.PlainRegistry
import SchemaLang.Proofs.Reader.Ensures

/-! What loading a text reads of a registry, and what it changes. It reads the context document
only, and there only the types of names that the text does not declare itself; it changes that
document only. So registries that hold the same types there give the same, and a text that was
loaded may be loaded again without any change. -/

namespace SchemaLang

namespace Registry

variable {reg reg' : Registry} {context source : String} {d : Document}

/-! ### What is read -/

/-- A name that stands for a stored type is not declared here, and the type is stored in the
context document. -/
theorem eq_of_lookup_stored {n c : String} {k : TypeKind}
    (h : reg.lookup context d n = some (.stored c k)) : c = context ∧ d.get? n = none := by
  cases hn : isBuiltinScalar n with
  | true => simp [lookup, hn] at h
  | false =>
    cases hd : d.get? n with
    | some t =>
      obtain ⟨slot, -, hl⟩ := reg.lookup_of_get? context hn hd
      cases hl.symm.trans h
    | none =>
      rw [lookup_of_get?_eq_none hn hd] at h
      obtain ⟨t, -, ht⟩ := Option.map_eq_some_iff.mp h
      cases ht
      exact ⟨rfl, rfl⟩

/-- In a resolved document each binding is what the name stands for. -/
theorem lookup_of_binding (hd : ∀ p r, d.ref? p = some r → r.binding = none) {p : RefPath}
    {r : TypeRef} (hr : (reg.resolve context d d.sites).document.ref? p = some r) {b : Binding}
    (hb : r.binding = some b) : reg.lookup context d r.name = some b := by
  rw [ref?_resolve] at hr
  obtain ⟨x, hx, rfl⟩ := Option.map_eq_some_iff.mp hr
  rw [name_rebind]
  cases hbound : reg.bindingFor context d (.of p x) with
  | error e =>
    rw [rebind, hbound, hd p x hx] at hb
    cases hb
  | ok b' =>
    rw [rebind, hbound] at hb
    rw [← Option.some.inj hb]
    exact lookup_of_bindingFor hbound

section

variable (h : ∀ n, d.get? n = none → reg.type? context n = reg'.type? context n)

include h

theorem lookup_congr (n : String) : reg.lookup context d n = reg'.lookup context d n := by
  cases hn : isBuiltinScalar n with
  | true => simp [lookup, hn]
  | false =>
    cases hd : d.get? n with
    | some t =>
      obtain ⟨slot, hs, hl⟩ := reg.lookup_of_get? context hn hd
      obtain ⟨slot', hs', hl'⟩ := reg'.lookup_of_get? context hn hd
      rw [hl, hl', Option.some.inj (hs.symm.trans hs')]
    | none => rw [lookup_of_get?_eq_none hn hd, lookup_of_get?_eq_none hn hd, h n hd]

theorem resolve_congr (ss : List RefSite) :
    reg.resolve context d ss = reg'.resolve context d ss := by
  have hbinding : reg.bindingFor context d = reg'.bindingFor context d := by
    funext s
    rw [bindingFor, lookup_congr h, bindingFor]
  have hbind : Document.bindSite reg context d = Document.bindSite reg' context d := by
    funext e s
    rw [Document.bindSite, hbinding, Document.bindSite]
  rw [resolve, hbinding, hbind, resolve]

/-- Interfaces that are stored are looked up where they were found. -/
theorem check_resolve_congr (hd : ∀ p r, d.ref? p = some r → r.binding = none)
    (skip : List Nat) : reg.check (reg.resolve context d d.sites).document skip =
      reg'.check (reg.resolve context d d.sites).document skip := by
  generalize he : (reg.resolve context d d.sites).document = e
  have hdefinition : ∀ t ∈ e.types.values, ∀ r ∈ t.interfaces,
      reg.definitionOf e r = reg'.definitionOf e r := by
    intro t ht r hr
    obtain ⟨p, -, hp⟩ := Document.mem_interfaces_iff.mp ⟨t, ht, hr⟩
    unfold definitionOf
    cases hb : r.binding with
    | none => rfl
    | some b =>
      cases b with
      | builtin => rfl
      | here slot k => rfl
      | stored c k =>
        subst he
        obtain ⟨rfl, hn⟩ := eq_of_lookup_stored (lookup_of_binding hd hp hb)
        exact h r.name hn
  have htype : ∀ t ∈ e.types.values, reg.checkType e t = reg'.checkType e t := by
    intro t ht
    unfold checkType
    cases hb : t.body with
    | object b =>
      refine List.filterMap_congr fun r hr => ?_
      have hri : r ∈ t.interfaces := by
        simpa [TypeDefinition.interfaces, TypeBody.fieldSet?, hb] using hr
      rw [checkInterface, hdefinition t ht r hri, checkInterface]
    | scalar | interface _ | union _ | enum _ | input _ => rfl
  refine List.flatMap_congr fun entry hentry => ?_
  obtain ⟨t, i⟩ := entry
  have ht : t ∈ e.types.values := (List.mem_zipIdx' hentry).2 ▸ List.getElem_mem _
  dsimp only
  rw [htype t ht]

end

/-- What is told of a text does not depend on more than the types that the context document has
under names which the text does not declare. -/
theorem examine_congr (h : ∀ n, (parse source context).document.get? n = none →
    reg.type? context n = reg'.type? context n) :
    reg.examine context source = reg'.examine context source := by
  have hresolve := resolve_congr h (parse source context).sites
  have hcheck := check_resolve_congr h fun _ _ => (wellFormed_parse source context).binding
  unfold examine checkResolved
  dsimp only
  rw [← hresolve, Parsed.sites, hcheck]

/-! ### What is changed -/

/-- Loading leaves all documents but one alone, and it leaves alone which one is current. -/
theorem load_frame (reg : Registry) (source : String) (options : LoadOptions) :
    let after := (reg.load source options).2
    (∀ c, c ≠ options.document.getD reg.current → after.document? c = reg.document? c) ∧
      after.active = reg.active ∧ after.fallback = reg.fallback := by
  intro after
  let context := options.document.getD reg.current
  by_cases hstore : options.persistence = .onSuccess ∧ (reg.examine context source).isOk = true
  · have hafter : after = reg.storeTypes context (reg.examine context source).document :=
      if_pos hstore
    have hstores := stores_storeTypes (reg.keyed_examine context source) reg context
    rw [hafter]
    exact ⟨hstores.documents, hstores.active, hstores.fallback⟩
  · have hafter : after = reg := if_neg hstore
    rw [hafter]
    exact ⟨fun _ _ => rfl, rfl, rfl⟩

/-- A text is loaded alike into registries that hold the same types in the context document,
whatever else they hold and whichever documents are current there: the same comes out, and
afterwards they again hold the same types in the context document. Nothing else is changed. -/
theorem load_congr (reg reg' : Registry) (source context : String) (persistence : Persistence)
    (h : ∀ n, reg.type? context n = reg'.type? context n) :
    let out := reg.load source ⟨some context, persistence⟩
    let out' := reg'.load source ⟨some context, persistence⟩
    out.1 = out'.1 ∧ (∀ n, out.2.type? context n = out'.2.type? context n) ∧
      (∀ c, c ≠ context → out.2.document? c = reg.document? c) ∧
      out.2.active = reg.active ∧ out.2.fallback = reg.fallback := by
  intro out out'
  have hexamine : reg.examine context source = reg'.examine context source :=
    examine_congr fun n _ => h n
  refine ⟨hexamine, fun n => ?_, reg.load_frame source ⟨some context, persistence⟩⟩
  have hkeyed := reg.keyed_examine context source
  by_cases hstore : persistence = .onSuccess ∧ (reg.examine context source).isOk = true
  · have hout : out.2 = reg.storeTypes context (reg.examine context source).document :=
      if_pos hstore
    have hout' : out'.2 = reg'.storeTypes context (reg.examine context source).document :=
      hexamine ▸ if_pos (hexamine ▸ hstore)
    rw [hout, hout', type?_storeTypes _ _ _ hkeyed, type?_storeTypes _ _ _ hkeyed, h n]
  · have hout : out.2 = reg := if_neg hstore
    have hout' : out'.2 = reg' := if_neg (hexamine ▸ hstore)
    rw [hout, hout', h n]

/-- A text for a stored interface, and a scalar of that name in another document that is current. -/
theorem load_congr_other :
    let options : LoadOptions := ⟨some "D", .onSuccess⟩
    let source := "type B implements A"
    let reg := ((Registry.empty "D").load "interface A" options).2
    let reg' := (reg.load "scalar A" ⟨some "E", .onSuccess⟩).2.activate "E"
    let out := reg.load source options
    let out' := reg'.load source options
    reg.documents.keys = ["D"] ∧ reg'.documents.keys = ["D", "E"] ∧ out.1.isOk = true ∧
      out.1 = out'.1 ∧ ∀ n, out.2.type? "D" n = out'.2.type? "D" n := by
  intro options source reg reg' out out'
  have hframe := (reg.load_frame "scalar A" ⟨some "E", .onSuccess⟩).1 "D" (by decide)
  have hagree : ∀ n, reg.type? "D" n = reg'.type? "D" n := fun n => by
    change _ = (reg.load "scalar A" ⟨some "E", .onSuccess⟩).2.type? "D" n
    rw [type?, type?, hframe]
  have hkeys : (let reg := ((Registry.empty "D").load "interface A" ⟨some "D", .onSuccess⟩).2
      (reg.documents.keys, (reg.load "scalar A" ⟨some "E", .onSuccess⟩).2.documents.keys,
        (reg.load "type B implements A" ⟨some "D", .onSuccess⟩).1.isOk)) =
      (["D"], ["D", "E"], true) := by decide +kernel
  simp only [Prod.mk.injEq] at hkeys
  obtain ⟨hsame, hstored, -⟩ := load_congr reg reg' source "D" .onSuccess hagree
  exact ⟨hkeys.1, hkeys.2.1, hkeys.2.2, hsame, hstored⟩

/-! ### Loading again -/

/-- Types that are stored already are not changed by storing them again. -/
theorem storeTypes_storeTypes (reg : Registry) (context : String) (hd : d.Keyed) :
    (reg.storeTypes context d).storeTypes context d = reg.storeTypes context d := by
  cases hne : d.types.isEmpty with
  | true => rw [storeTypes_of_isEmpty _ _ hne, storeTypes_of_isEmpty _ _ hne]
  | false =>
    have hdocument := documentOrEmpty_storeTypes reg context hd
    rw [storeTypes_eq _ _ hd hne, hdocument, storeTypes_eq _ _ hd hne]
    dsimp only
    rw [Table.insertAll_insertAll (Table.distinct _), Table.insert_insert]

/-- A text may be loaded again: what comes out is the same, bindings and places included, and the
registry stays exactly as it is. -/
theorem load_load (reg : Registry) (source : String) (options : LoadOptions) :
    let first := reg.load source options
    first.2.load source options = first := by
  intro first
  let context := options.document.getD reg.current
  by_cases hstore : options.persistence = .onSuccess ∧ (reg.examine context source).isOk = true
  · have hkeyed := reg.keyed_examine context source
    have hfirst : first = (reg.examine context source,
        reg.storeTypes context (reg.examine context source).document) :=
      congrArg (Prod.mk _) (if_pos hstore)
    have hcontext : options.document.getD first.2.current = context := by
      obtain ⟨-, hactive, hfallback⟩ := reg.load_frame source options
      rw [current, hactive, hfallback]
      rfl
    -- a name that was not stored just now is not declared by the text
    have hothers : ∀ n, (parse source context).document.get? n = none →
        first.2.type? context n = reg.type? context n := by
      intro n hn
      rw [hfirst]
      refine (stores_storeTypes hkeyed reg context).others n ?_
      rwa [Document.get?, Table.get?_eq_none_iff, keys_examine, ← Table.get?_eq_none_iff]
    have hexamine := examine_congr hothers
    rw [load, hcontext, hexamine, if_pos hstore, hfirst, storeTypes_storeTypes _ _ hkeyed]
  · have hfirst : first.2 = reg := if_neg hstore
    rw [hfirst]

end Registry

end SchemaLang
