import SchemaLang.Proofs.Document.Rearranged
import SchemaLang.Proofs.Settled

/-! The causes of what is reported of a document, told without slots, bindings and places: for each
name in it what is wrong with the name, and for each object what it lacks, given what the names
stand for. The causes are those of what resolving and checking report. -/

namespace SchemaLang

/-! ### Causes -/

/-- What is wrong with a name that is bound as `binding` tells, where an interface has to stand or
not. -/
def nameCause (context : String) (binding : Option Binding) (n : Bool × String) : Option Cause :=
  match binding with
  | none => some (.undefinedType n.2 context)
  | some b => if n.1 ∧ b.kind ≠ .interface then some (.notAnInterface n.2) else none

/-- What an object of the given name and fields lacks for an interface, where `env` tells the type
that a name stands for. -/
def lackCause (env : String → Option TypeDefinition) (object : String) (given : Table Field)
    (interface : String) : Option Cause := do
  let required ← (← env interface).fields?
  let missing := missingFields given required
  if missing.isEmpty then none else some (.missingFields object interface missing)

namespace TypeDefinition

/-- Is the type of one of the fields not known? -/
def hasUnknownField (known : String → Option Binding) (t : TypeDefinition) : Bool :=
  ((t.fields?.map (·.values)).getD []).any fun f => (known f.type.name).isNone

/-- What an object lacks, unless a type of its fields is not known. -/
def causes (known : String → Option Binding) (env : String → Option TypeDefinition)
    (t : TypeDefinition) : List Cause :=
  if t.hasUnknownField known then []
  else match t.body with
    | .object b => b.interfaces.filterMap fun r => lackCause env t.name.value b.fields r.name
    | _ => []

end TypeDefinition

namespace Document

/-- What is wrong with the names in a document. -/
def nameCauses (context : String) (known : String → Option Binding) (d : Document) : List Cause :=
  d.refNames.filterMap fun n => nameCause context (known n.2) n

/-- Is there a name where an interface has to stand that is none? -/
def lacksInterface (context : String) (known : String → Option Binding) (d : Document) : Bool :=
  d.refNames.any fun n => n.1 && (nameCause context (known n.2) n).isSome

/-- What the objects of a document lack. -/
def lackCauses (known : String → Option Binding) (env : String → Option TypeDefinition)
    (d : Document) : List Cause := d.types.values.flatMap (TypeDefinition.causes known env)

/-- What is wrong with the names in a document and, if all interfaces are there, with its
objects. -/
def causes (context : String) (known : String → Option Binding)
    (env : String → Option TypeDefinition) (d : Document) : List Cause :=
  d.nameCauses context known ++
    if d.lacksInterface context known then [] else d.lackCauses known env

end Document

/-! ### Labels and order -/

section

variable {known : String → Option Binding} {env : String → Option TypeDefinition}
  {ρ σ : Relabeling} {context : String}

theorem missingFields_map (given required : Table Field) :
    missingFields (given.map (Field.relabel ρ)) (required.map (Field.relabel σ)) =
      missingFields given required := by
  have hsame : ∀ r s : TypeRef, (ρ.ref r == σ.ref s) = (r == s) := by
    intro r s
    change TypeRef.same _ _ = TypeRef.same _ _
    simp [TypeRef.same]
  rw [missingFields, missingFields, Table.values_map, List.filter_map, List.map_map]
  have hfilter : ∀ f : Field, (!((given.map (Field.relabel ρ)).get? f.name.value).any
      fun g => g.type == (f.relabel σ).type) = !(given.get? f.name.value).any
        fun g => g.type == f.type := by
    intro f
    rw [Table.get?_map]
    cases given.get? f.name.value with
    | none => rfl
    | some g => exact congrArg not (hsame g.type f.type)
  exact congrArg (List.map _) (List.filter_congr fun f _ => hfilter f)

theorem lackCause_map (object interface : String) (given : Table Field) :
    lackCause (fun n => (env n).map (TypeDefinition.relabel σ)) object
        (given.map (Field.relabel ρ)) interface =
      lackCause env object given interface := by
  dsimp only [lackCause]
  cases env interface with
  | none => rfl
  | some t =>
    simp only [Option.map_some, Option.bind_eq_bind, Option.bind_some,
      TypeDefinition.fields?_relabel]
    cases t.fields? with
    | none => rfl
    | some fs => simp only [Option.map_some, Option.bind_some, missingFields_map]

theorem TypeDefinition.hasUnknownField_relabel (t : TypeDefinition) :
    (t.relabel ρ).hasUnknownField known = t.hasUnknownField known := by
  rw [hasUnknownField, fields?_relabel, hasUnknownField]
  cases t.fields? with
  | none => rfl
  | some fs => simp [Function.comp_def]

/-- Labels do not count, neither those of a type nor those of the types that names stand for. -/
theorem TypeDefinition.causes_relabel (t : TypeDefinition) :
    (t.relabel ρ).causes known (fun n => (env n).map (TypeDefinition.relabel σ)) =
      t.causes known env := by
  rw [causes, hasUnknownField_relabel, causes]
  congr 1
  rw [body_relabel]
  cases t.body with
  | object b =>
    dsimp only [TypeBody.relabel, FieldSet.relabel]
    rw [List.filterMap_map]
    refine List.filterMap_congr fun r _ => ?_
    rw [Function.comp, TypeRef.name_relabel]
    exact lackCause_map _ _ _
  | scalar | interface _ | union _ | enum _ | input _ => rfl

namespace Document

theorem refNames_relabel (d : Document) : (d.relabel ρ).refNames = d.refNames := by
  rw [refNames, refs_relabel, List.map_map]
  refine List.map_congr_left fun e _ => ?_
  simp

theorem lackCauses_relabel (d : Document) :
    (d.relabel ρ).lackCauses known (fun n => (env n).map (TypeDefinition.relabel σ)) =
      d.lackCauses known env := by
  rw [lackCauses, types_relabel, Table.values_map, List.flatMap_map]
  simp only [TypeDefinition.causes_relabel]
  rfl

theorem causes_relabel (d : Document) :
    (d.relabel ρ).causes context known (fun n => (env n).map (TypeDefinition.relabel σ)) =
      d.causes context known env := by
  simp only [causes, nameCauses, lacksInterface, refNames_relabel, lackCauses_relabel]
  rfl

theorem Rearranged.perm_causes {d e : Document} (h : d.Rearranged e) :
    (d.causes context known env).Perm (e.causes context known env) := by
  have hinterface : d.lacksInterface context known = e.lacksInterface context known :=
    h.perm_refNames.any_eq
  rw [causes, causes, hinterface]
  refine (h.perm_refNames.filterMap _).append ?_
  split
  next => exact .refl _
  next => exact (Table.perm_values h.types).flatMap_right _

end Document

end

/-! ### What is reported -/

namespace Registry

variable {reg : Registry} {context : String} {d : Document}

theorem nameCause_eq (s : RefSite) :
    nameCause context (reg.settle context d s.name) (s.path.isInterface, s.name) =
      match reg.bindingFor context d s with
      | .ok _ => none
      | .error e => some e.cause := by
  have hkind : ∀ b : Binding, (b.outside context).kind = b.kind := fun b => by cases b <;> rfl
  rw [settle_eq_lookup, bindingFor]
  cases reg.lookup context d s.name with
  | none => rfl
  | some b =>
    rw [Option.map_some]
    dsimp only [nameCause]
    rw [hkind]
    split <;> rfl

/-- Sites and names are the same but for the order. -/
theorem perm_sites (d : Document) :
    (d.sites.map fun s => (s.path.isInterface, s.name)).Perm d.refNames := by
  have h := (List.mergeSort_perm (d.refs.map fun e => RefSite.of e.1 e.2)
    fun s t => s.position.le t.position).map fun s => (s.path.isInterface, s.name)
  rw [List.map_map] at h
  exact h

theorem perm_causes_resolve (reg : Registry) (context : String) (d : Document) :
    ((reg.resolve context d d.sites).diagnostics.map (·.cause)).Perm
      (d.nameCauses context (reg.settle context d)) := by
  have h := (perm_sites d).filterMap fun n => nameCause context (reg.settle context d n.2) n
  rw [List.filterMap_map] at h
  refine List.Perm.trans (.of_eq ?_) h
  rw [resolve, List.map_filterMap]
  refine List.filterMap_congr fun s _ => ?_
  rw [Function.comp, nameCause_eq]
  cases reg.bindingFor context d s <;> rfl

theorem interfaceFailed_resolve (reg : Registry) (context : String) (d : Document) :
    (reg.resolve context d d.sites).interfaceFailed =
      d.lacksInterface context (reg.settle context d) := by
  have h := (perm_sites d).any_eq
    (f := fun n => n.1 && (nameCause context (reg.settle context d n.2) n).isSome)
  rw [Document.lacksInterface, ← h, List.any_map, Resolution.interfaceFailed, resolve,
    List.any_filterMap]
  refine congrArg (List.any d.sites) (funext fun s => ?_)
  rw [Function.comp, nameCause_eq]
  cases reg.bindingFor context d s <;> simp

theorem mem_failed_iff {p : RefPath} :
    p ∈ (reg.resolve context d d.sites).failed ↔ ∃ r, d.ref? p = some r ∧
      (nameCause context (reg.settle context d r.name) (p.isInterface, r.name)).isSome = true := by
  have hfailed : p ∈ (reg.resolve context d d.sites).failed ↔ ∃ s ∈ d.sites, s.path = p ∧
      (nameCause context (reg.settle context d s.name) (s.path.isInterface, s.name)).isSome := by
    rw [resolve, List.mem_filterMap]
    refine exists_congr fun s => and_congr_right fun _ => ?_
    rw [nameCause_eq]
    cases reg.bindingFor context d s <;> simp
  rw [hfailed]
  constructor
  · rintro ⟨s, hs, rfl, h⟩
    obtain ⟨r, hr, heq⟩ := mem_sites_iff.mp hs
    refine ⟨r, hr, ?_⟩
    rwa [show s.name = r.name from congrArg RefSite.name heq] at h
  · rintro ⟨r, hr, h⟩
    exact ⟨.of p r, mem_sites_iff.mpr ⟨r, hr, rfl⟩, rfl, h⟩

/-- The type of a field is found under the path of the field. -/
theorem hasUnknownField_iff {known : String → Option Binding} {t : TypeDefinition} :
    t.hasUnknownField known = true ↔
      ∃ j r, t.ref? (.field j) = some r ∧ known r.name = none := by
  have hfields : ∀ b : FieldSet, (b.fields.values.any fun f => (known f.type.name).isNone) = true ↔
      ∃ j r, b.ref? (.field j) = some r ∧ known r.name = none := by
    intro b
    simp only [List.any_eq_true, Table.mem_values_iff_at?, Option.isNone_iff_eq_none,
      FieldSet.ref?, Option.map_eq_some_iff]
    constructor
    · rintro ⟨f, ⟨j, hj⟩, hf⟩
      exact ⟨j, f.type, ⟨f, hj, rfl⟩, hf⟩
    · rintro ⟨j, _, ⟨f, hj, rfl⟩, hf⟩
      exact ⟨f, ⟨j, hj⟩, hf⟩
  obtain ⟨description, name, directives, body⟩ := t
  cases body with
  | object b => exact hfields b
  | interface b => exact hfields b
  | scalar | union _ | enum _ | input _ =>
    refine iff_of_false Bool.false_ne_true ?_
    rintro ⟨j, r, hr, -⟩
    cases hr

/-- The types that are left out are those with an unknown field. -/
theorem contains_slotsWithUnresolvedFields {i : Nat} {t : TypeDefinition}
    (ht : d.types.at? i = some t) :
    (reg.resolve context d d.sites).slotsWithUnresolvedFields.contains i =
      t.hasUnknownField (reg.settle context d) := by
  have hslot : ∀ p : RefPath, p.ownField? = some i ↔ ∃ j, p = .type i (.field j) := by
    intro p
    cases p with
    | type slot q => cases q <;> simp [RefPath.ownField?, eq_comm]
    | directiveArgument _ _ => simp [RefPath.ownField?]
    | rootOperation _ => simp [RefPath.ownField?]
  have hcause : ∀ r : TypeRef, (nameCause context (reg.settle context d r.name)
      (false, r.name)).isSome = true ↔ reg.settle context d r.name = none := by
    intro r
    cases reg.settle context d r.name <;> simp [nameCause]
  rw [Bool.eq_iff_iff, hasUnknownField_iff, List.contains_eq_mem, decide_eq_true_eq,
    Resolution.slotsWithUnresolvedFields, List.mem_eraseDups, List.mem_filterMap]
  simp only [hslot, mem_failed_iff]
  constructor
  · rintro ⟨_, ⟨r, hr, h⟩, j, rfl⟩
    rw [Document.ref?, ht] at hr
    exact ⟨j, r, hr, (hcause r).mp h⟩
  · rintro ⟨j, r, hr, h⟩
    exact ⟨.type i (.field j), ⟨r, by rw [Document.ref?, ht]; exact hr, (hcause r).mpr h⟩, j, rfl⟩

/-- If all interfaces are there, an object is held to what the names of its interfaces stand
for. -/
theorem checkType_resolve {e : Document} (he : (reg.resolve context d d.sites).document = e)
    (hi : d.lacksInterface context (reg.settle context d) = false) {t : TypeDefinition}
    (ht : t ∈ e.types.values) (hfield : t.hasUnknownField (reg.settle context d) = false) :
    reg.checkType e t =
      (t.causes (reg.settle context d) (reg.meaning? context e)).map (⟨·, t.name.location⟩) := by
  have hdef : ∀ r ∈ t.interfaces, reg.definitionOf e r = reg.meaning? context e r.name := by
    intro r hr
    obtain ⟨p, hp, hpr⟩ := Document.mem_interfaces_iff.mp ⟨t, ht, hr⟩
    subst he
    have hx := hpr
    rw [ref?_resolve] at hx
    obtain ⟨x, hx, hxr⟩ := Option.map_eq_some_iff.mp hx
    obtain ⟨b, hb⟩ : ∃ b, reg.bindingFor context d (.of p x) = .ok b := by
      cases hb : reg.bindingFor context d (.of p x) with
      | ok b => exact ⟨b, rfl⟩
      | error err =>
        have hcause := @nameCause_eq reg context d (.of p x)
        rw [hb] at hcause
        have hmem : p ∈ (reg.resolve context d d.sites).failed :=
          mem_failed_iff.mpr ⟨x, hx, congrArg Option.isSome hcause⟩
        rw [← interfaceFailed_resolve, Resolution.interfaceFailed, List.any_eq_false] at hi
        exact absurd hp (hi p hmem)
    have hname : r.name = x.name := by rw [← hxr, name_rebind]
    refine definitionOf_resolve hpr (b := b) (by rw [← hxr, of_rebind]; exact hb) ?_
    rw [hname]
    exact ((bindingFor_ok_iff.mp ⟨b, hb⟩).2 hp).1
  rw [TypeDefinition.causes, hfield, if_neg Bool.false_ne_true, checkType]
  cases hb : t.body with
  | object b =>
    dsimp only
    rw [List.map_filterMap]
    refine List.filterMap_congr fun r hr => ?_
    have hri : r ∈ t.interfaces := by
      simpa [TypeDefinition.interfaces, TypeBody.fieldSet?, hb] using hr
    rw [checkInterface, hdef r hri, lackCause]
    cases reg.meaning? context e r.name with
    | none => rfl
    | some i =>
      simp only [Option.bind_eq_bind, Option.bind_some]
      cases i.fields? with
      | none => rfl
      | some fs =>
        simp only [Option.bind_some]
        split <;> rfl
  | scalar | interface _ | union _ | enum _ | input _ => rfl

theorem checkResolved_resolve (reg : Registry) (context : String) (d : Document) :
    reg.checkResolved (reg.resolve context d d.sites) =
      if d.lacksInterface context (reg.settle context d) then []
      else d.types.values.flatMap fun t =>
        (t.causes (reg.settle context d) (reg.meaning? context d)).map
          (⟨·, t.name.location⟩) := by
  rw [checkResolved, interfaceFailed_resolve]
  split
  next => rfl
  next hi =>
    have hsame : (reg.resolve context d d.sites).document.relabel .unbind = d.relabel .unbind :=
      reg.relabel_resolve context d d.sites fun _ _ => rfl
    have hmeaning := funext (@meaning?_congr reg context _ _ _ hsame)
    generalize he : (reg.resolve context d d.sites).document = e at hsame hmeaning ⊢
    -- The objects are looked at as they are without bindings, since so they are the same.
    have hunbind : ∀ c : Document, (c.types.values.flatMap fun t =>
        (t.causes (reg.settle context d) (reg.meaning? context c)).map
          fun x => (⟨x, t.name.location⟩ : Diagnostic)) =
        (c.relabel .unbind).types.values.flatMap fun t =>
          (t.causes (reg.settle context d)
            fun n => (reg.meaning? context c n).map (TypeDefinition.relabel .unbind)).map
              (⟨·, t.name.location⟩) := by
      intro c
      rw [Document.types_relabel, Table.values_map, List.flatMap_map]
      simp only [TypeDefinition.causes_relabel]
      rfl
    rw [hunbind d, ← hmeaning, ← hsame, ← hunbind e, check]
    rw [← List.flatMap_zipIdx e.types.values (fun t => List.map _ (TypeDefinition.causes _ _ t)) 0]
    refine List.flatMap_congr fun ti hti => ?_
    obtain ⟨t, i⟩ := ti
    have ht : e.types.at? i = some t := by
      rw [← Table.getElem?_values]
      exact List.mk_mem_zipIdx_iff_getElem?.mp hti
    have hskip : (reg.resolve context d d.sites).slotsWithUnresolvedFields.contains i =
        t.hasUnknownField (reg.settle context d) := by
      have hmap := congrArg (fun d : Document => d.types.at? i) hsame
      simp only [Document.types_relabel, Table.at?_map, ht, Option.map_some] at hmap
      obtain ⟨u, hu, hut⟩ := Option.map_eq_some_iff.mp hmap.symm
      rw [contains_slotsWithUnresolvedFields hu, ← TypeDefinition.hasUnknownField_relabel, hut,
        TypeDefinition.hasUnknownField_relabel]
    dsimp only
    rw [hskip]
    cases hfield : t.hasUnknownField (reg.settle context d) with
    | true => rw [TypeDefinition.causes, hfield]; rfl
    | false =>
      exact checkType_resolve he (Bool.not_eq_true _ ▸ hi) (Table.mem_values_iff_at?.mpr ⟨i, ht⟩)
        hfield

theorem causes_checkResolved (reg : Registry) (context : String) (d : Document) :
    (reg.checkResolved (reg.resolve context d d.sites)).map (·.cause) =
      if d.lacksInterface context (reg.settle context d) then []
      else d.lackCauses (reg.settle context d) (reg.meaning? context d) := by
  rw [checkResolved_resolve]
  split
  next => rfl
  next => simp [Document.lackCauses, List.map_flatMap, Function.comp_def]

/-- What is reported of a text that is read without complaint, up to places and order. -/
theorem perm_causes_examine {source : String} (h : parse source context = ⟨d, [], false⟩) :
    ((reg.examine context source).diagnostics.map (·.cause)).Perm
      (d.causes context (reg.settle context d) (reg.meaning? context d)) := by
  have hexamine : (reg.examine context source).diagnostics =
      (reg.resolve context d d.sites).diagnostics ++
        reg.checkResolved (reg.resolve context d d.sites) := by
    rw [examine, h]
    rfl
  rw [hexamine, List.map_append, causes_checkResolved]
  exact (reg.perm_causes_resolve context d).append_right _

end Registry

end SchemaLang
