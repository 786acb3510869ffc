import SchemaLang.Document.Reference
import SchemaLang.Proofs.Table

/-! A path and the reference at it. The references of a document are listed with their paths,
each path finds the reference it is listed with, changing the reference at one path leaves
those at the others, and changing all of them reaches each one. -/

namespace SchemaLang

/-! ### Inside an object or interface -/

namespace FieldSet

theorem mem_refs_iff {b : FieldSet} {p : TypePath} {r : TypeRef} :
    (p, r) ∈ b.refs ↔ b.ref? p = some r := by
  simp only [refs, List.mem_append, List.mem_flatMap, List.mem_cons, List.mem_map, Prod.exists,
    List.mk_mem_zipIdx_iff_getElem?, Prod.mk.injEq, Table.getElem?_values]
  cases p with
  | interface i => simp [ref?]
  | field i => simp [ref?, @eq_comm _ r]
  | argument i j =>
    simp only [reduceCtorEq, false_and, and_false, exists_false, false_or, ref?,
      TypePath.argument.injEq]
    constructor
    · rintro ⟨f, _, hf, a, _, ha, ⟨rfl, rfl⟩, rfl⟩
      simp [hf, ha]
    · intro h
      obtain ⟨f, hf, h⟩ := Option.bind_eq_some_iff.mp h
      obtain ⟨a, ha, h⟩ := Option.bind_eq_some_iff.mp h
      exact ⟨f, i, hf, a, j, ha, ⟨rfl, rfl⟩, Option.some.inj h⟩
  | member i => simp [ref?]
  | inputField i => simp [ref?]

/-- Only the reference at the path is changed. -/
theorem ref?_modifyRef (b : FieldSet) (f : TypeRef → TypeRef) (p q : TypePath) :
    (b.modifyRef f p).ref? q = if p = q then (b.ref? q).map f else b.ref? q := by
  cases p with
  | interface i =>
    cases q <;> simp [modifyRef, ref?, List.getElem?_modify]
    split <;> simp
  | field i =>
    cases q with
    | field j =>
      simp only [modifyRef, ref?, Table.at?_modify, TypePath.field.injEq]
      split <;> simp [Option.map_map, Function.comp_def]
    | argument j k =>
      simp only [modifyRef, ref?, Table.at?_modify, reduceCtorEq, if_false]
      split
      · cases b.fields.at? j <;> rfl
      · rfl
    | interface _ | member _ | inputField _ => simp [modifyRef, ref?]
  | argument i k =>
    cases q with
    | field j =>
      simp only [modifyRef, ref?, Table.at?_modify, reduceCtorEq, if_false]
      split <;> simp [Option.map_map, Function.comp_def]
    | argument j l =>
      simp only [modifyRef, ref?, Table.at?_modify, TypePath.argument.injEq]
      by_cases hij : i = j
      · cases b.fields.at? j with
        | none => simp
        | some fd =>
          by_cases hkl : k = l <;> cases hl : fd.arguments[l]? <;> simp [hij, hkl, hl]
      · simp [hij]
    | interface _ | member _ | inputField _ => simp [modifyRef, ref?]
  | member i => simp [modifyRef]; rintro rfl; simp [ref?]
  | inputField i => simp [modifyRef]; rintro rfl; simp [ref?]

/-- Every reference changed. -/
def mapTypes (f : TypeRef → TypeRef) (b : FieldSet) : FieldSet where
  interfaces := b.interfaces.map f
  fields := b.fields.map fun fd =>
    { fd with
      arguments := fd.arguments.map fun a => { a with type := f a.type }
      type := f fd.type }

theorem ref?_mapTypes (f : TypeRef → TypeRef) (b : FieldSet) (p : TypePath) :
    (b.mapTypes f).ref? p = (b.ref? p).map f := by
  cases p with
  | interface i => simp [mapTypes, ref?]
  | field i => simp [mapTypes, ref?, Option.map_map, Function.comp_def]
  | argument i j =>
    simp only [mapTypes, ref?, Table.at?_map]
    cases b.fields.at? i with
    | none => rfl
    | some fd => cases h : fd.arguments[j]? <;> simp [h]
  | member i => rfl
  | inputField i => rfl

end FieldSet

/-! ### Inside a type definition -/

/-- Every reference of a body changed, and nothing else. -/
def TypeBody.mapTypes (f : TypeRef → TypeRef) : TypeBody → TypeBody
  | scalar => scalar
  | object b => object (b.mapTypes f)
  | interface b => interface (b.mapTypes f)
  | union rs => union (rs.map f)
  | enum vs => enum vs
  | input fs => input (fs.map fun v => { v with type := f v.type })

namespace TypeDefinition

theorem mem_refs_iff {d : TypeDefinition} {p : TypePath} {r : TypeRef} :
    (p, r) ∈ d.refs ↔ d.ref? p = some r := by
  obtain ⟨description, name, directives, body⟩ := d
  cases body with
  | scalar => simp [refs, ref?]
  | object b => exact FieldSet.mem_refs_iff
  | interface b => exact FieldSet.mem_refs_iff
  | union rs =>
    simp only [refs, List.mem_map, Prod.exists, List.mk_mem_zipIdx_iff_getElem?, Prod.mk.injEq]
    cases p <;> simp [ref?]
  | enum vs => simp [refs, ref?]
  | input fs =>
    simp only [refs, List.mem_map, Prod.exists, List.mk_mem_zipIdx_iff_getElem?, Prod.mk.injEq,
      Table.getElem?_values]
    cases p <;> simp [ref?]

theorem ref?_modifyRef (d : TypeDefinition) (f : TypeRef → TypeRef) (p q : TypePath) :
    (d.modifyRef p f).ref? q = if p = q then (d.ref? q).map f else d.ref? q := by
  obtain ⟨description, name, directives, body⟩ := d
  cases body with
  | scalar => simp [modifyRef, ref?]
  | object b => exact b.ref?_modifyRef f p q
  | interface b => exact b.ref?_modifyRef f p q
  | union rs =>
    cases p with
    | member i =>
      cases q <;> simp [modifyRef, ref?, List.getElem?_modify]
      split <;> simp
    | interface _ | field _ | argument _ _ | inputField _ =>
      cases q <;> simp [modifyRef, ref?]
  | enum vs => simp [modifyRef, ref?]
  | input fs =>
    cases p with
    | inputField i =>
      cases q <;> simp [modifyRef, ref?, Table.at?_modify]
      split <;> simp [Option.map_map, Function.comp_def]
    | interface _ | field _ | argument _ _ | member _ => cases q <;> simp [modifyRef, ref?]

theorem ref?_of_fieldSet? {d : TypeDefinition} {b : FieldSet} (h : d.body.fieldSet? = some b)
    (p : TypePath) : d.ref? p = b.ref? p := by
  obtain ⟨description, name, directives, body⟩ := d
  cases body <;> cases h <;> rfl

@[simp] theorem name_modifyRef (d : TypeDefinition) (p : TypePath) (f : TypeRef → TypeRef) :
    (d.modifyRef p f).name = d.name := by
  unfold modifyRef
  split <;> rfl

@[simp] theorem kind_modifyRef (d : TypeDefinition) (p : TypePath) (f : TypeRef → TypeRef) :
    (d.modifyRef p f).kind = d.kind := by
  unfold modifyRef
  split <;> simp [kind, TypeBody.kind, *]

/-- Every reference changed, and nothing else. -/
def mapTypes (f : TypeRef → TypeRef) (d : TypeDefinition) : TypeDefinition :=
  { d with body := d.body.mapTypes f }

theorem ref?_mapTypes (f : TypeRef → TypeRef) (d : TypeDefinition) (p : TypePath) :
    (d.mapTypes f).ref? p = (d.ref? p).map f := by
  obtain ⟨description, name, directives, body⟩ := d
  cases body with
  | scalar => rfl
  | object b => exact b.ref?_mapTypes f p
  | interface b => exact b.ref?_mapTypes f p
  | union rs => cases p <;> simp [mapTypes, TypeBody.mapTypes, ref?]
  | enum vs => rfl
  | input fs =>
    cases p <;> simp [mapTypes, TypeBody.mapTypes, ref?, Option.map_map, Function.comp_def]

end TypeDefinition

/-! ### Visits that keep no state -/

theorem Table.visit_pure {α β : Type} (f : α → β) (t : Table α) :
    t.visit (fun v => (pure (f v) : StateM Unit β)) = pure (t.map f) := by
  have h : visitEntries (fun v => (pure (f v) : StateM Unit β)) t.entries =
      pure (t.entries.map fun e => (e.1, f e.2)) := by
    simp only [visitEntries_eq, map_pure, List.mapM_pure]
  funext s
  exact Prod.ext (Table.ext (congrArg Prod.fst (congrFun h s))) rfl

/-- A visit of the references that keeps no state changes each of them. -/
theorem FieldSet.visitRefs_pure (f : TypeRef → TypeRef) (b : FieldSet) :
    b.visitRefs (fun r => (pure (f r) : StateM Unit TypeRef)) = pure (b.mapTypes f) := by
  unfold visitRefs
  simp only [List.mapM_pure, pure_bind, Table.visit_pure]
  rfl

theorem TypeDefinition.mapRefs_eq (f : TypeRef → TypeRef) (d : TypeDefinition) :
    d.mapRefs f = d.mapTypes f := by
  obtain ⟨description, name, directives, body⟩ := d
  cases body with
  | scalar => rfl
  | object b => simp [mapRefs, visitRefs, FieldSet.visitRefs_pure]; rfl
  | interface b => simp [mapRefs, visitRefs, FieldSet.visitRefs_pure]; rfl
  | union rs => simp [mapRefs, visitRefs, List.mapM_pure]; rfl
  | enum vs => rfl
  | input fs => simp [mapRefs, visitRefs, Table.visit_pure]; rfl

/-! ### Inside a document -/

namespace Document

/-- A reference stands in one of the places that a document has for references to types. -/
inductive Mentions (d : Document) : TypeRef → Prop
  | implemented {t : TypeDefinition} {b : FieldSet} {r : TypeRef} (ht : t ∈ d.types.values)
      (hb : t.body.fieldSet? = some b) (hr : r ∈ b.interfaces) : d.Mentions r
  | field {t : TypeDefinition} {b : FieldSet} {f : Field} (ht : t ∈ d.types.values)
      (hb : t.body.fieldSet? = some b) (hf : f ∈ b.fields.values) : d.Mentions f.type
  | argument {t : TypeDefinition} {b : FieldSet} {f : Field} {a : InputValue}
      (ht : t ∈ d.types.values) (hb : t.body.fieldSet? = some b) (hf : f ∈ b.fields.values)
      (ha : a ∈ f.arguments) : d.Mentions a.type
  | member {t : TypeDefinition} {rs : List TypeRef} {r : TypeRef} (ht : t ∈ d.types.values)
      (hb : t.body = .union rs) (hr : r ∈ rs) : d.Mentions r
  | inputField {t : TypeDefinition} {fs : Table InputValue} {v : InputValue}
      (ht : t ∈ d.types.values) (hb : t.body = .input fs) (hv : v ∈ fs.values) : d.Mentions v.type
  | directiveArgument {v : DirectiveDefinition} {a : InputValue} (hv : v ∈ d.directives.values)
      (ha : a ∈ v.arguments) : d.Mentions a.type
  | rootOperation {s : Schema} {op : RootOperation} (hs : d.schema = some s)
      (hop : op ∈ s.operations) : d.Mentions op.type

theorem mem_refs_iff {d : Document} {p : RefPath} {r : TypeRef} :
    (p, r) ∈ d.refs ↔ d.ref? p = some r := by
  simp only [refs, List.mem_append, List.mem_flatMap, List.mem_map, Prod.exists,
    List.mk_mem_zipIdx_iff_getElem?, Prod.mk.injEq, Table.getElem?_values,
    TypeDefinition.mem_refs_iff]
  cases p with
  | type slot p => cases h : d.types.at? slot <;> simp [ref?, h]
  | directiveArgument i j => 
    cases h : d.directives.at? i <;> simp [ref?, h, Option.bind_eq_some_iff]
  | rootOperation i => cases h : d.schema <;> simp [ref?, h, Option.bind_eq_some_iff]

theorem mentions_of_fieldSet {d : Document} {t : TypeDefinition} {b : FieldSet} {p : TypePath}
    {r : TypeRef} (ht : t ∈ d.types.values) (hb : t.body.fieldSet? = some b)
    (hp : b.ref? p = some r) : d.Mentions r := by
  cases p with
  | interface i => exact .implemented ht hb (List.mem_of_getElem? hp)
  | field i =>
    obtain ⟨f, hf, rfl⟩ := Option.map_eq_some_iff.mp hp
    exact .field ht hb (Table.mem_values_iff_at?.mpr ⟨i, hf⟩)
  | argument i j =>
    obtain ⟨f, hf, hp⟩ := Option.bind_eq_some_iff.mp hp
    obtain ⟨a, ha, hp⟩ := Option.bind_eq_some_iff.mp hp
    cases hp
    exact .argument ht hb (Table.mem_values_iff_at?.mpr ⟨i, hf⟩) (List.mem_of_getElem? ha)
  | member i => cases hp
  | inputField i => cases hp

theorem mentions_of_type {d : Document} {t : TypeDefinition} {p : TypePath} {r : TypeRef}
    (ht : t ∈ d.types.values) (hp : t.ref? p = some r) : d.Mentions r := by
  unfold TypeDefinition.ref? at hp
  split at hp
  next b hb => exact mentions_of_fieldSet ht (by rw [hb]; rfl) hp
  next b hb => exact mentions_of_fieldSet ht (by rw [hb]; rfl) hp
  next rs i hb => exact .member ht hb (List.mem_of_getElem? hp)
  next fs i hb =>
    obtain ⟨v, hv, rfl⟩ := Option.map_eq_some_iff.mp hp
    exact .inputField ht hb (Table.mem_values_iff_at?.mpr ⟨i, hv⟩)
  next => cases hp

theorem exists_ref?_of_type {d : Document} {t : TypeDefinition} {p : TypePath} {r : TypeRef}
    (ht : t ∈ d.types.values) (hp : t.ref? p = some r) : ∃ p, d.ref? p = some r := by
  obtain ⟨i, hi⟩ := Table.mem_values_iff_at?.mp ht
  exact ⟨.type i p, by simp [ref?, hi, hp]⟩

theorem Mentions.exists_ref? {d : Document} {r : TypeRef} (h : d.Mentions r) :
    ∃ p, d.ref? p = some r := by
  cases h with
  | implemented ht hb hr =>
    obtain ⟨j, hj⟩ := List.mem_iff_getElem?.mp hr
    refine exists_ref?_of_type (p := .interface j) ht ?_
    rw [TypeDefinition.ref?_of_fieldSet? hb]
    exact hj
  | field ht hb hf =>
    obtain ⟨j, hj⟩ := Table.mem_values_iff_at?.mp hf
    refine exists_ref?_of_type (p := .field j) ht ?_
    simp [TypeDefinition.ref?_of_fieldSet? hb, FieldSet.ref?, hj]
  | argument ht hb hf ha =>
    obtain ⟨j, hj⟩ := Table.mem_values_iff_at?.mp hf
    obtain ⟨k, hk⟩ := List.mem_iff_getElem?.mp ha
    refine exists_ref?_of_type (p := .argument j k) ht ?_
    simp [TypeDefinition.ref?_of_fieldSet? hb, FieldSet.ref?, hj, hk]
  | member ht hb hr =>
    obtain ⟨j, hj⟩ := List.mem_iff_getElem?.mp hr
    refine exists_ref?_of_type (p := .member j) ht ?_
    simp [TypeDefinition.ref?, hb, hj]
  | inputField ht hb hv =>
    obtain ⟨j, hj⟩ := Table.mem_values_iff_at?.mp hv
    refine exists_ref?_of_type (p := .inputField j) ht ?_
    simp [TypeDefinition.ref?, hb, hj]
  | directiveArgument hv ha =>
    obtain ⟨i, hi⟩ := Table.mem_values_iff_at?.mp hv
    obtain ⟨j, hj⟩ := List.mem_iff_getElem?.mp ha
    exact ⟨.directiveArgument i j, by simp [ref?, hi, hj]⟩
  | rootOperation hs hop =>
    obtain ⟨i, hi⟩ := List.mem_iff_getElem?.mp hop
    exact ⟨.rootOperation i, by simp [ref?, hs, hi]⟩

/-- A path leads to every reference, and to nothing else. -/
theorem mentions_iff {d : Document} {r : TypeRef} : d.Mentions r ↔ ∃ p, d.ref? p = some r := by
  constructor
  · exact Mentions.exists_ref?
  · rintro ⟨p, hp⟩
    cases p with
    | type slot p =>
      obtain ⟨t, ht, hp⟩ := Option.bind_eq_some_iff.mp hp
      exact mentions_of_type (Table.mem_values_iff_at?.mpr ⟨slot, ht⟩) hp
    | directiveArgument i j =>
      obtain ⟨v, hv, hp⟩ := Option.bind_eq_some_iff.mp hp
      obtain ⟨a, ha, hp⟩ := Option.bind_eq_some_iff.mp hp
      cases hp
      exact .directiveArgument (Table.mem_values_iff_at?.mpr ⟨i, hv⟩) (List.mem_of_getElem? ha)
    | rootOperation i =>
      obtain ⟨s, hs, hp⟩ := Option.bind_eq_some_iff.mp hp
      obtain ⟨op, hop, hp⟩ := Option.bind_eq_some_iff.mp hp
      cases hp
      exact .rootOperation hs (List.mem_of_getElem? hop)

/-- The paths of interfaces lead to the interfaces that the types name. -/
theorem mem_interfaces_iff {d : Document} {r : TypeRef} :
    (∃ t ∈ d.types.values, r ∈ t.interfaces) ↔ ∃ p, p.isInterface = true ∧ d.ref? p = some r := by
  constructor
  · rintro ⟨t, ht, hr⟩
    obtain ⟨i, hi⟩ := Table.mem_values_iff_at?.mp ht
    unfold TypeDefinition.interfaces at hr
    cases hb : t.body.fieldSet? with
    | none => simp [hb] at hr
    | some b =>
      obtain ⟨j, hj⟩ := List.mem_iff_getElem?.mp (by simpa [hb] using hr : r ∈ b.interfaces)
      refine ⟨.type i (.interface j), rfl, ?_⟩
      simp [ref?, hi, TypeDefinition.ref?_of_fieldSet? hb, FieldSet.ref?, hj]
  · rintro ⟨p, hp, hr⟩
    unfold RefPath.isInterface at hp
    split at hp
    next i j =>
      obtain ⟨t, ht, hr⟩ := Option.bind_eq_some_iff.mp hr
      refine ⟨t, Table.mem_values_iff_at?.mpr ⟨i, ht⟩, ?_⟩
      obtain ⟨description, name, directives, body⟩ := t
      cases body with
      | object b => exact List.mem_of_getElem? hr
      | interface b => exact List.mem_of_getElem? hr
      | scalar | union _ | enum _ | input _ => cases hr
    next => cases hp

theorem ref?_modifyRef (d : Document) (f : TypeRef → TypeRef) (p q : RefPath) :
    (d.modifyRef f p).ref? q = if p = q then (d.ref? q).map f else d.ref? q := by
  cases p with
  | type slot p =>
    cases q with
    | type slot' q =>
      simp only [modifyRef, ref?, Table.at?_modify, RefPath.type.injEq]
      by_cases hs : slot = slot'
      · cases d.types.at? slot' with
        | none => simp
        | some t => simp [hs, TypeDefinition.ref?_modifyRef]
      · simp [hs]
    | directiveArgument _ _ | rootOperation _ => simp [modifyRef, ref?]
  | directiveArgument i j =>
    cases q with
    | directiveArgument k l =>
      simp only [modifyRef, ref?, Table.at?_modify, RefPath.directiveArgument.injEq]
      by_cases hik : i = k
      · cases d.directives.at? k with
        | none => simp
        | some v => by_cases hjl : j = l <;> cases hl : v.arguments[l]? <;> simp [hik, hjl, hl]
      · simp [hik]
    | type _ _ | rootOperation _ => simp [modifyRef, ref?]
  | rootOperation i =>
    cases q with
    | rootOperation j =>
      cases hs : d.schema with
      | none => simp [modifyRef, ref?, hs]
      | some s =>
        by_cases hij : i = j <;> cases hj : s.operations[j]? <;>
          simp [modifyRef, ref?, hs, hij, hj]
    | type _ _ | directiveArgument _ _ => simp [modifyRef, ref?]

end Document

end SchemaLang
