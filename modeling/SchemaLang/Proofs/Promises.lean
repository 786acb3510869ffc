import SchemaLang.Proofs.Abort
import SchemaLang.Proofs.Bindings
import SchemaLang.Proofs.Causes
import SchemaLang.Proofs.Document.Contents

/-! Which promises are reported as broken. An object promises the fields of the interfaces that it
names. A promise to what is no interface stops the whole comparison, and an object with a field of
unknown type is not held to its promises; of all other promises the broken ones are reported, each
once with the fields that it lacks. -/

namespace SchemaLang

/-! ### Promises -/

/-- An object, and the name of an interface whose fields it promises to have. -/
structure Promise where
  object : TypeDefinition
  interface : String

namespace TypeDefinition

/-- The promises of an object, in the order in which it names its interfaces. Other types make
none. -/
def promises (t : TypeDefinition) : List Promise :=
  match t.body with
  | .object b => b.interfaces.map fun r => ⟨t, r.name⟩
  | .scalar | .interface _ | .union _ | .enum _ | .input _ => []

/-- The type declares the field too: under the same name, and of the same named type in the same
wrappers. -/
def Declares (t : TypeDefinition) (f : Field) : Prop :=
  ∃ g ∈ t.body.fields, g.name.value = f.name.value ∧ g.type.name = f.type.name ∧
    g.type.wrappers = f.type.wrappers

instance (t : TypeDefinition) : DecidablePred t.Declares := fun f =>
  inferInstanceAs (Decidable (∃ g ∈ t.body.fields, g.name.value = f.name.value ∧
    g.type.name = f.type.name ∧ g.type.wrappers = f.type.wrappers))

end TypeDefinition

/-- The promises in a document, in the order of the objects. -/
def Document.promises (d : Document) : List Promise :=
  d.types.values.flatMap TypeDefinition.promises

namespace Promise

variable (reg : Registry) (context : String) (d : Document)

instance (n : String) : Decidable (reg.Knows context d n) :=
  decidable_of_iff _ Registry.lookup_isSome_iff

/-- The fields of the interface, in order. -/
def promised (p : Promise) : List Field :=
  ((reg.meaning? context d p.interface).map (·.body.fields)).getD []

/-- The names of the fields of the interface that the object does not declare, in the order of the
interface. -/
def lacking (p : Promise) : List String :=
  ((p.promised reg context d).filter fun f => ¬ p.object.Declares f).map (·.name.value)

/-- The types of all fields of the object are known, and it lacks a field. The arguments of its
fields do not count, nor what is unknown in the interface. -/
structure Broken (p : Promise) : Prop where
  known : ∀ f ∈ p.object.body.fields, reg.Knows context d f.type.name
  lacking : p.lacking reg context d ≠ []

/-- What is reported of a broken promise. -/
def report (p : Promise) : Diagnostic where
  cause := .missingFields p.object.name.value p.interface (p.lacking reg context d)
  location := p.object.name.location

instance : DecidablePred (Broken reg context d) := fun p =>
  decidable_of_iff ((∀ f ∈ p.object.body.fields, reg.Knows context d f.type.name) ∧
    p.lacking reg context d ≠ []) ⟨fun h => ⟨h.1, h.2⟩, fun h => ⟨h.known, h.lacking⟩⟩

end Promise

/-! ### Keys and names -/

theorem Table.exists_get?_iff {α : Type} {t : Table α} {name : α → String} (h : t.KeyedBy name)
    {k : String} {P : α → Prop} :
    (∃ v, t.get? k = some v ∧ P v) ↔ ∃ v ∈ t.values, name v = k ∧ P v := by
  constructor
  · rintro ⟨v, hv, hP⟩
    have hmem := get?_eq_some_iff.mp hv
    exact ⟨v, List.mem_map_of_mem hmem, h _ hmem, hP⟩
  · rintro ⟨_, hv, rfl, hP⟩
    obtain ⟨⟨k, v⟩, hmem, rfl⟩ := List.mem_map.mp hv
    exact ⟨v, get?_eq_some_iff.mpr (h _ hmem ▸ hmem), hP⟩

/-- Fields are missing as the names and types of the declared ones tell. -/
theorem missingFields_eq {t : TypeDefinition} {given : Table Field} (required : Table Field)
    (ht : t.fields? = some given) (hkeyed : given.KeyedBy (·.name.value)) :
    missingFields given required =
      (required.values.filter fun f => ¬ t.Declares f).map (·.name.value) := by
  have hdeclares : ∀ f : Field,
      ((given.get? f.name.value).any fun g => g.type == f.type) = true ↔ t.Declares f := by
    intro f
    rw [TypeDefinition.Declares, TypeDefinition.fields_eq, ht, Option.map_some, Option.getD_some,
      ← Table.exists_get?_iff hkeyed, Option.any_eq_true]
    exact exists_congr fun g => and_congr_right fun _ => TypeRef.same_iff
  rw [missingFields]
  refine congrArg (List.map _) (List.filter_congr fun f _ => ?_)
  rw [Bool.eq_iff_iff, Bool.not_eq_true', ← Bool.not_eq_true, hdeclares, decide_eq_true_iff]

namespace Registry

variable {reg : Registry} {context : String} {d : Document}

theorem hasUnknownField_settle {t : TypeDefinition} :
    t.hasUnknownField (reg.settle context d) = false ↔
      ∀ f ∈ t.body.fields, reg.Knows context d f.type.name := by
  rw [TypeDefinition.hasUnknownField, ← TypeDefinition.fields_eq, List.any_eq_false]
  refine forall₂_congr fun f _ => ?_
  rw [settle_eq_lookup, Option.isNone_map, ← lookup_isSome_iff]
  cases reg.lookup context d f.type.name <;> simp

theorem isSome_nameCause_settle {n : String} :
    (nameCause context (reg.settle context d n) (true, n)).isSome = true ↔
      ¬ reg.KnowsInterface context d n := by
  rw [knowsInterface_iff, settle]
  cases isBuiltinScalar n with
  | true => simp [nameCause, Binding.kind]
  | false =>
    cases reg.meaning? context d n with
    | none => simp [nameCause]
    | some t => simp [nameCause, Binding.kind]

theorem lacksInterface_settle :
    d.lacksInterface context (reg.settle context d) = true ↔
      ∃ t ∈ d.types.values, ∃ r ∈ t.interfaces, ¬ reg.KnowsInterface context d r.name := by
  simp only [Document.lacksInterface, Document.refNames, List.any_map, List.any_eq_true,
    Function.comp, Bool.and_eq_true, Prod.exists, Document.mem_refs_iff]
  constructor
  · rintro ⟨p, r, hr, hp, hcause⟩
    obtain ⟨t, ht, hrt⟩ := Document.mem_interfaces_iff.mpr ⟨p, hp, hr⟩
    rw [hp, isSome_nameCause_settle] at hcause
    exact ⟨t, ht, r, hrt, hcause⟩
  · rintro ⟨t, ht, r, hrt, hr⟩
    obtain ⟨p, hp, hpr⟩ := Document.mem_interfaces_iff.mp ⟨t, ht, hrt⟩
    refine ⟨p, r, hpr, hp, ?_⟩
    rwa [hp, isSome_nameCause_settle]

/-- The cause of what is reported of one promise. -/
theorem lackCause_eq {t : TypeDefinition} {given : Table Field} (ht : t.fields? = some given)
    (hkeyed : given.KeyedBy (·.name.value)) (n : String) :
    lackCause (reg.meaning? context d) t.name.value given n =
      if (Promise.mk t n).lacking reg context d = [] then none
      else some (.missingFields t.name.value n ((Promise.mk t n).lacking reg context d)) := by
  rw [lackCause, Promise.lacking]
  cases hi : reg.meaning? context d n with
  | none => simp [Promise.promised, hi]
  | some i =>
    cases hrequired : i.fields? with
    | none => simp [Promise.promised, TypeDefinition.fields_eq, hi, hrequired]
    | some required =>
      have hpromised : (Promise.mk t n).promised reg context d = required.values := by
        simp [Promise.promised, TypeDefinition.fields_eq, hi, hrequired]
      rw [hpromised]
      simp only [Option.bind_eq_bind, Option.bind_some, missingFields_eq required ht hkeyed,
        List.isEmpty_iff, hrequired]

theorem phase_exception (s : RefSite) : (reg.exception context d s).phase = .resolve := by
  rw [exception]
  dsimp only [Diagnostic.phase]
  split <;> rfl

/-- What an object lacks is reported promise by promise. -/
theorem map_causes_eq {t : TypeDefinition}
    (hkeyed : ∀ given, t.fields? = some given → given.KeyedBy (·.name.value)) :
    (t.causes (reg.settle context d) (reg.meaning? context d)).map (⟨·, t.name.location⟩) =
      (t.promises.filter (Promise.Broken reg context d ·)).map (Promise.report reg context d) := by
  have hbroken : ∀ n, (Promise.mk t n).Broken reg context d ↔
      t.hasUnknownField (reg.settle context d) = false ∧
        (Promise.mk t n).lacking reg context d ≠ [] := fun n =>
    ⟨fun h => ⟨hasUnknownField_settle.mpr h.known, h.lacking⟩,
      fun h => ⟨hasUnknownField_settle.mp h.1, h.2⟩⟩
  cases hb : t.body with
  | object b =>
    have hfields : t.fields? = some b.fields := by
      rw [TypeDefinition.fields?, hb]
      rfl
    simp only [TypeDefinition.causes, TypeDefinition.promises, hb]
    rw [List.filter_map, List.map_map, Function.comp_def]
    split
    next hunknown => simp [hbroken, hunknown]
    next hknown =>
      rw [List.map_filterMap, ← List.filterMap_eq_map, List.filterMap_filter]
      refine List.filterMap_congr fun r _ => ?_
      rw [lackCause_eq hfields (hkeyed _ hfields)]
      by_cases hlacking : (Promise.mk t r.name).lacking reg context d = []
      · simp [hbroken, hlacking]
      · simp [hbroken, hlacking, Bool.eq_false_of_not_eq_true hknown, Promise.report]
  | scalar | interface _ | union _ | enum _ | input _ =>
    simp [TypeDefinition.causes, TypeDefinition.promises, hb]

end Registry

/-! ### Each promise once -/

theorem TypeDefinition.object_of_mem_promises {t : TypeDefinition} {p : Promise}
    (hp : p ∈ t.promises) : p.object = t := by
  rw [promises] at hp
  split at hp
  next b =>
    obtain ⟨r, -, rfl⟩ := List.mem_map.mp hp
    rfl
  all_goals cases hp

theorem TypeDefinition.WellFormed.nodup_promises {t : TypeDefinition} (h : t.WellFormed) :
    (t.promises.map (·.interface)).Nodup := by
  have hbody := h.body
  rw [promises]
  split
  next b hb =>
    rw [hb] at hbody
    rw [List.map_map]
    exact hbody.interfaces.distinct
  all_goals exact List.nodup_nil

theorem Document.WellFormed.nodup_promises {d : Document} (h : d.WellFormed) :
    (d.promises.map fun p => (p.object.name.value, p.interface)).Nodup := by
  rw [promises, List.map_flatMap, List.nodup_flatMap]
  constructor
  · intro t ht
    refine List.Nodup.of_map Prod.snd ?_
    rw [List.map_map]
    exact (h.types t ht).nodup_promises
  · have hdistinct := h.keyed.types.nodup
    rw [List.Nodup, List.pairwise_map] at hdistinct
    refine hdistinct.imp fun {t u} hne x ht hu => hne ?_
    obtain ⟨p, hp, rfl⟩ := List.mem_map.mp ht
    obtain ⟨q, hq, heq⟩ := List.mem_map.mp hu
    rw [← TypeDefinition.object_of_mem_promises hp, ← TypeDefinition.object_of_mem_promises hq]
    exact (Prod.mk.inj heq).1.symm

/-! ### Loading -/

/-- If a text is read to its end, what is reported of it comes in three parts: what is wrong with
how it reads, then the names that stand for nothing or for no interface where one has to stand, and
then the broken promises. If some name stands for no interface where one has to stand, the third
part is empty. Otherwise each promise is made to an interface, and the third part reports each
broken one, in the order in which the promises are made. -/
theorem Registry.load_promises (reg : Registry) (source : String) (options : LoadOptions)
    (h : (reg.load source options).1.aborted = false) :
    let context := options.document.getD reg.current
    let p := parse source context
    let d := p.document
    ∃ resolving checking : Diagnostics,
      (reg.load source options).1.diagnostics = p.diagnostics ++ resolving ++ checking ∧
      (∀ e ∈ p.diagnostics, e.phase = .parse) ∧ (∀ e ∈ resolving, e.phase = .resolve) ∧
      (∀ e ∈ checking, e.phase = .conformance) ∧
      resolving = (p.sites.filter (reg.Excepted context d ·)).map (reg.exception context d) ∧
      ((∃ t ∈ d.types.values, ∃ r ∈ t.interfaces, ¬ reg.KnowsInterface context d r.name) →
        checking = []) ∧
      ((∀ t ∈ d.types.values, ∀ r ∈ t.interfaces, reg.KnowsInterface context d r.name) →
        checking = (d.promises.filter (Promise.Broken reg context d ·)).map
          (Promise.report reg context d)) ∧
      (d.promises.map fun p => (p.object.name.value, p.interface)).Nodup := by
  intro context p d
  have hd : d.WellFormed := wellFormed_parse source context
  have hdiagnostics : (reg.load source options).1.diagnostics = p.diagnostics ++
      (reg.resolve context d d.sites).diagnostics ++
      reg.checkResolved (reg.resolve context d d.sites) := by
    change (reg.examine context source).aborted = false at h
    change (reg.examine context source).diagnostics = _
    rw [examine] at h ⊢
    dsimp only at h ⊢
    split at h
    next => cases h
    next haborted =>
      rw [if_neg haborted]
      rfl
  have hresolving : (reg.resolve context d d.sites).diagnostics =
      (p.sites.filter (reg.Excepted context d ·)).map (reg.exception context d) :=
    filterMap_bindingFor (fun _ x => x) d.sites
  refine ⟨_, _, hdiagnostics, fun e => phase_of_mem_parse, ?_, ?_, hresolving, ?_, ?_,
    hd.nodup_promises⟩
  · rw [hresolving]
    intro e he
    obtain ⟨s, -, rfl⟩ := List.mem_map.mp he
    exact phase_exception s
  · rw [checkResolved_resolve]
    intro e he
    split at he
    next => cases he
    next =>
      obtain ⟨t, ht, he⟩ := List.mem_flatMap.mp he
      rw [map_causes_eq fun given => hd.keyedBy_fields ht] at he
      obtain ⟨q, -, rfl⟩ := List.mem_map.mp he
      rfl
  · intro hlacks
    rw [checkResolved_resolve, if_pos (lacksInterface_settle.mpr hlacks)]
  · intro hall
    have hlacks : ¬ d.lacksInterface context (reg.settle context d) = true := by
      rw [lacksInterface_settle]
      push Not
      exact hall
    rw [checkResolved_resolve, if_neg hlacks, Document.promises, List.filter_flatMap,
      List.map_flatMap]
    exact List.flatMap_congr fun t ht => map_causes_eq fun given => hd.keyedBy_fields ht

/-- An object with an argument of unknown type, and an interface with a field of unknown type: what
the object lacks is reported all the same. -/
theorem Registry.load_promises_unknown :
    let source := "type A implements I{f(x:X):Int}interface I{g:Y}"
    let reg := Registry.empty "D"
    let d := (parse source "D").document
    let out := (reg.load source {}).1
    out.aborted = false ∧
      (∀ t ∈ d.types.values, ∀ r ∈ t.interfaces, reg.KnowsInterface "D" d r.name) ∧
      ∃ resolving : Diagnostics,
        resolving.map (·.cause) = [.undefinedType "X" "D", .undefinedType "Y" "D"] ∧
        out.diagnostics = resolving ++ [⟨.missingFields "A" "I" ["g"], ⟨⟨1, 6⟩, ⟨5, 6⟩⟩⟩] := by
  intro source reg d out
  let interface : RefSite := ⟨.type 0 (.interface 0), "I", ⟨⟨1, 19⟩, ⟨18, 19⟩⟩⟩
  let argument : RefSite := ⟨.type 0 (.argument 0 0), "X", ⟨⟨1, 25⟩, ⟨24, 25⟩⟩⟩
  let result : RefSite := ⟨.type 0 (.field 0), "Int", ⟨⟨1, 28⟩, ⟨27, 30⟩⟩⟩
  let field : RefSite := ⟨.type 1 (.field 0), "Y", ⟨⟨1, 46⟩, ⟨45, 46⟩⟩⟩
  have hrefs : (d.refs.map fun e => RefSite.of e.1 e.2) =
      [interface, result, argument, field] := by decide +kernel
  have hsites : (parse source "D").sites = [interface, argument, result, field] := by
    change (d.refs.map fun e => RefSite.of e.1 e.2).mergeSort _ = _
    rw [hrefs]
    simp [List.mergeSort, RefSite.position, Position.le, interface, argument, result, field]
  have heval : ((parse source "D").aborted, (parse source "D").diagnostics,
      d.lacksInterface "D" (reg.settle "D" d),
      ([interface, argument, result, field].filter (reg.Excepted "D" d ·)).map fun s =>
        (reg.exception "D" d s).cause,
      (d.promises.filter (Promise.Broken reg "D" d ·)).map (Promise.report reg "D" d)) =
      (false, [], false, [.undefinedType "X" "D", .undefinedType "Y" "D"],
        [⟨.missingFields "A" "I" ["g"], ⟨⟨1, 6⟩, ⟨5, 6⟩⟩⟩]) := by decide +kernel
  simp only [Prod.mk.injEq] at heval
  obtain ⟨haborted, hparsed, hinterfaces, hcauses, hbroken⟩ := heval
  have hout : out.aborted = false := by
    change (reg.examine "D" source).aborted = false
    rw [examine, if_neg (Bool.eq_false_iff.mp haborted)]
  have hall : ∀ t ∈ d.types.values, ∀ r ∈ t.interfaces, reg.KnowsInterface "D" d r.name := by
    have hnone := mt lacksInterface_settle.mpr (Bool.eq_false_iff.mp hinterfaces)
    push Not at hnone
    exact hnone
  obtain ⟨resolving, checking, hdiagnostics, -, -, -, hresolving, -, hchecking, -⟩ :=
    load_promises reg source {} hout
  refine ⟨hout, hall, resolving, ?_, ?_⟩
  · rw [hresolving, List.map_map]
    rw [← hsites] at hcauses
    exact hcauses
  · rw [hdiagnostics, hchecking hall]
    exact congrArg₂ _ (congrArg (· ++ resolving) hparsed) hbroken

end SchemaLang
