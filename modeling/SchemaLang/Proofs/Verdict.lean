import SchemaLang.Load
import SchemaLang.Proofs.Resolution

/-! When a text is good: it is read without a diagnostic, every name in it is known, every
interface is one, and every object has the fields of its interfaces. Bindings, slots and
skipped types are means to find this out, and the verdict can be told without them. -/

namespace SchemaLang

namespace Registry

variable {reg : Registry} {context : String} {d e : Document}

/-! ### Names mean the same before and after binding -/

theorem isSome_get?_of_kinds (h : e.kinds = d.kinds) (n : String) :
    (e.get? n).isSome = (d.get? n).isSome := by
  rw [← Option.isSome_map, Document.kind_get?_of_kinds h n, Option.isSome_map]

theorem knows_of_kinds (h : e.kinds = d.kinds) {n : String} :
    reg.Knows context e n ↔ reg.Knows context d n := by
  simp only [Knows, ← Option.isSome_iff_exists, isSome_get?_of_kinds h n]

theorem knowsInterface_iff {n : String} :
    reg.KnowsInterface context d n ↔
      isBuiltinScalar n = false ∧ (reg.meaning? context d n).map (·.kind) = some .interface := by
  simp [KnowsInterface]

theorem knowsInterface_of_kinds (h : e.kinds = d.kinds) {n : String} :
    reg.KnowsInterface context e n ↔ reg.KnowsInterface context d n := by
  have hk := Document.kind_get?_of_kinds h n
  have hm : (reg.meaning? context e n).map (·.kind) = (reg.meaning? context d n).map (·.kind) := by
    unfold meaning?
    cases he : e.get? n <;> cases hd : d.get? n <;> simp_all
  rw [knowsInterface_iff, knowsInterface_iff, hm]

/-- What a bound name leads to is what the name stands for. -/
theorem definitionOf_resolve {p : RefPath} {r : TypeRef} {b : Binding}
    (hr : (reg.resolve context d d.sites).document.ref? p = some r)
    (hb : reg.bindingFor context d (.of p r) = .ok b) (hn : isBuiltinScalar r.name = false) :
    reg.definitionOf (reg.resolve context d d.sites).document r =
      reg.meaning? context (reg.resolve context d d.sites).document r.name := by
  have hkinds := reg.kinds_resolve context d d.sites
  have hbinding : r.binding = some b := by
    rw [ref?_resolve] at hr
    obtain ⟨x, -, rfl⟩ := Option.map_eq_some_iff.mp hr
    rw [of_rebind] at hb
    simp [rebind, hb]
  generalize (reg.resolve context d d.sites).document = e at *
  have hl : reg.lookup context d r.name = some b := lookup_of_bindingFor hb
  have hsome := isSome_get?_of_kinds hkinds r.name
  unfold definitionOf meaning?
  cases hd : d.get? r.name with
  | some t =>
    obtain ⟨slot, hs, ht⟩ := reg.lookup_of_get? context hn hd
    obtain rfl : b = .here slot t.kind := Option.some.inj (hl.symm.trans ht)
    rw [hbinding]
    rw [hd, Option.isSome_some] at hsome
    obtain ⟨u, hu⟩ := Option.isSome_iff_exists.mp hsome
    rw [hu]
    exact (Table.at?_of_slot? ((Document.slot?_of_kinds hkinds r.name).trans hs)).trans hu
  | none =>
    rw [lookup_of_get?_eq_none hn hd] at hl
    obtain ⟨t, ht, rfl⟩ := Option.map_eq_some_iff.mp hl
    rw [hd, Option.isSome_none, Option.isSome_eq_false_iff, Option.isNone_iff_eq_none] at hsome
    rw [hbinding, hsome, Option.none_or]

/-! ### When resolving reports nothing -/

/-- Nothing is reported exactly if every name is known and every interface is one. -/
theorem diagnostics_resolve_iff (h : (reg.resolve context d d.sites).document = e) :
    (reg.resolve context d d.sites).diagnostics = [] ↔
      (∀ r, e.Mentions r → reg.Knows context e r.name) ∧
      ∀ t ∈ e.types.values, ∀ r ∈ t.interfaces, reg.KnowsInterface context e r.name := by
  have hkinds : e.kinds = d.kinds := h ▸ reg.kinds_resolve context d d.sites
  have href : ∀ p, e.ref? p = (d.ref? p).map fun r => reg.rebind context d (.of p r) r :=
    h ▸ ref?_resolve
  have hiff : (reg.resolve context d d.sites).diagnostics = [] ↔ ∀ p r, e.ref? p = some r →
      reg.Knows context e r.name ∧
        (p.isInterface = true → reg.KnowsInterface context e r.name) := by
    rw [diagnostics_resolve_eq_nil_iff]
    simp only [bindingFor_ok_iff, knows_of_kinds hkinds, knowsInterface_of_kinds hkinds, href,
      Option.map_eq_some_iff]
    constructor
    · rintro hd p _ ⟨r, hr, rfl⟩
      rw [name_rebind]
      exact hd p r hr
    · intro he p r hr
      have h := he p _ ⟨r, hr, rfl⟩
      rw [name_rebind] at h
      exact h
  rw [hiff]
  constructor
  · intro hd
    refine ⟨fun r hr => ?_, fun t ht r hr => ?_⟩
    · obtain ⟨p, hp⟩ := Document.mentions_iff.mp hr
      exact (hd p r hp).1
    · obtain ⟨p, hp, hr⟩ := Document.mem_interfaces_iff.mp ⟨t, ht, hr⟩
      exact (hd p r hr).2 hp
  · rintro ⟨hm, hi⟩ p r hr
    refine ⟨hm r (Document.mentions_iff.mpr ⟨p, hr⟩), fun hp => ?_⟩
    obtain ⟨t, ht, hr⟩ := Document.mem_interfaces_iff.mpr ⟨p, hp, hr⟩
    exact hi t ht r hr

/-! ### When checking reports nothing -/

theorem missingFields_eq_nil_iff {given required : Table Field} :
    missingFields given required = [] ↔
      ∀ f ∈ required.values, ∃ g, given.get? f.name.value = some g ∧ g.type.same f.type = true := by
  simp only [missingFields, List.map_eq_nil_iff, List.filter_eq_nil_iff, Bool.not_eq_true',
    Bool.not_eq_false]
  refine forall₂_congr fun f _ => ?_
  cases given.get? f.name.value with
  | none => simp
  | some g => simp [BEq.beq]

theorem checkInterface_eq_none_iff {t : TypeDefinition} {given : Table Field} {r : TypeRef} :
    reg.checkInterface d t given r = none ↔
      ∀ i fs, reg.definitionOf d r = some i → i.fields? = some fs →
        missingFields given fs = [] := by
  unfold checkInterface
  constructor
  · rintro h i fs hi hfs
    simpa [hi, hfs] using h
  · intro h
    cases hi : reg.definitionOf d r with
    | none => rfl
    | some i =>
      cases hfs : i.fields? with
      | none => simp [hfs]
      | some fs => simp [hfs, h i fs hi hfs]

theorem check_eq_nil_iff :
    reg.check d [] = [] ↔ ∀ t ∈ d.types.values, ∀ b, t.body = .object b →
      ∀ r ∈ b.interfaces, reg.checkInterface d t b.fields r = none := by
  have hflat : reg.check d [] = [] ↔ ∀ t ∈ d.types.values, reg.checkType d t = [] := by
    simp only [check, List.flatMap_eq_nil_iff, List.mem_iff_getElem?, Prod.forall]
    constructor
    · rintro h t ⟨i, hi⟩
      simpa using h t i ⟨i, by simp [hi]⟩
    · rintro h t i ⟨j, hj⟩
      obtain ⟨hj, -⟩ : d.types.values[j]? = some t ∧ j = i := by simpa using hj
      simpa using h t ⟨j, hj⟩
  rw [hflat]
  refine forall₂_congr fun t _ => ?_
  unfold checkType
  cases t.body with
  | object b => simp
  | scalar | interface _ | union _ | enum _ | input _ => simp

/-! ### The verdict -/

/-- Does an object with the fields `given` declare each field of the interface that `name` stands
for, under the same name and with the same type in the same wrappers? -/
def Provides (reg : Registry) (context : String) (d : Document) (given : Table Field)
    (name : String) : Prop :=
  ∀ i required, reg.meaning? context d name = some i → i.fields? = some required →
    ∀ f ∈ required.values, ∃ g, given.get? f.name.value = some g ∧
      g.type.name = f.type.name ∧ g.type.wrappers = f.type.wrappers

/-- Of a resolved document without faults the check finds nothing exactly if its objects provide
the fields of their interfaces. -/
theorem check_resolve_iff (h : (reg.resolve context d d.sites).document = e)
    (hd : (reg.resolve context d d.sites).diagnostics = []) :
    reg.check e [] = [] ↔ ∀ t ∈ e.types.values, ∀ b, t.body = .object b →
      ∀ r ∈ b.interfaces, reg.Provides context e b.fields r.name := by
  rw [check_eq_nil_iff]
  refine forall₂_congr fun t ht => forall₂_congr fun b hb => forall₂_congr fun r hr => ?_
  have hri : r ∈ t.interfaces := by
    simpa [TypeDefinition.interfaces, TypeBody.fieldSet?, hb] using hr
  have hki := ((diagnostics_resolve_iff h).mp hd).2 t ht r hri
  -- the reference is bound, so the check finds what its name stands for
  obtain ⟨p, -, hp⟩ := Document.mem_interfaces_iff.mp ⟨t, ht, hri⟩
  rw [← h] at hp
  have hp' := hp
  rw [ref?_resolve] at hp'
  obtain ⟨x, hx, hxr⟩ := Option.map_eq_some_iff.mp hp'
  obtain ⟨c, hc⟩ := diagnostics_resolve_eq_nil_iff.mp hd p x hx
  have hdef := definitionOf_resolve hp (by rw [← hxr, of_rebind]; exact hc) hki.1
  rw [h] at hdef
  simp only [checkInterface_eq_none_iff, hdef, missingFields_eq_nil_iff, TypeRef.same_iff, Provides]

end Registry

/-- Loading reports nothing exactly if reading reports nothing, every name that the document
mentions is known, every interface is one, and every object has the fields of its interfaces. -/
theorem Registry.load_isOk_iff (reg : Registry) (source context : String)
    (persistence : Persistence) :
    let out := (reg.load source ⟨some context, persistence⟩).1
    out.isOk = true ↔
      (parse source context).diagnostics = [] ∧
      (∀ r, out.document.Mentions r → reg.Knows context out.document r.name) ∧
      (∀ t ∈ out.document.types.values, ∀ r ∈ t.interfaces,
        reg.KnowsInterface context out.document r.name) ∧
      ∀ t ∈ out.document.types.values, ∀ b, t.body = .object b →
        ∀ r ∈ b.interfaces, reg.Provides context out.document b.fields r.name := by
  dsimp only [load, Option.getD_some]
  unfold examine
  dsimp only
  split
  next ha =>
    have hne : (parse source context).diagnostics ≠ [] := Parsed.diagnostics_ne_nil_of_aborted ha
    simp [Loaded.isOk, hne]
  next ha =>
    generalize hd : (parse source context).document = d
    have hs : (parse source context).sites = d.sites := by rw [Parsed.sites, hd]
    rw [hs]
    generalize he : (reg.resolve context d d.sites).document = e
    simp only [Loaded.isOk, List.isEmpty_iff, List.append_eq_nil_iff]
    rw [and_assoc, ← and_assoc (a := ∀ r, _), ← diagnostics_resolve_iff he]
    refine and_congr_right fun _ => and_congr_right fun hnil => ?_
    rw [← check_resolve_iff he hnil]
    have hf := (failed_eq_nil_iff _).mpr hnil
    simp [checkResolved, Resolution.interfaceFailed, Resolution.slotsWithUnresolvedFields, hf, he]

end SchemaLang
