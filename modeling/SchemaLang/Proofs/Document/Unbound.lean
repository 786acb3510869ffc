import SchemaLang.Proofs.Document.Relabel
import SchemaLang.Proofs.Document.WellFormed

/-! Documents without their bindings. A type is known by what it says without bindings and by
the references in it, path by path. A document that was read from a text has no bindings, and
binding references changes nothing else of a document. -/

namespace SchemaLang

open Relabeling

/-! ### Without bindings -/

theorem Directive.relabel_unbind (d : Directive) : d.relabel unbind = d := by
  have h : Argument.relabel unbind = id := rfl
  rw [relabel, h, List.map_id]
  rfl

theorem Directive.relabel_unbind_list (ds : List Directive) :
    ds.map (Directive.relabel unbind) = ds := by
  rw [funext Directive.relabel_unbind]
  exact List.map_id ds

theorem InputValue.relabel_unbind (v : InputValue) :
    v.relabel unbind id = { v with type := unbind.ref v.type } := by
  rw [relabel, Directive.relabel_unbind_list, Option.map_id]
  rfl

theorem Field.relabel_unbind (f : Field) :
    f.relabel unbind = { f with
      arguments := f.arguments.map (InputValue.relabel unbind id)
      type := unbind.ref f.type } := by
  change Field.mk (f.description.map id) _ _ _ _ = _
  rw [Directive.relabel_unbind_list, Option.map_id]
  rfl

theorem EnumValue.relabel_unbind (v : EnumValue) : v.relabel unbind = v := by
  change EnumValue.mk (v.description.map id) _ _ = _
  rw [Directive.relabel_unbind_list, Option.map_id]
  rfl

theorem TypeDefinition.relabel_unbind (t : TypeDefinition) :
    t.relabel unbind = { t with body := t.body.relabel unbind } := by
  change TypeDefinition.mk (t.description.map id) _ _ _ = _
  rw [Directive.relabel_unbind_list, Option.map_id]
  rfl

/-! ### Told by their references -/

theorem List.ext_map {α β γ : Type} {f : α → β} {g : α → γ}
    (hfg : ∀ a b, f a = f b → g a = g b → a = b) {as bs : List α} (hf : as.map f = bs.map f)
    (hg : as.map g = bs.map g) : as = bs := by
  induction as generalizing bs with
  | nil =>
    rw [List.map_nil, eq_comm, List.map_eq_nil_iff] at hf
    exact hf.symm
  | cons a as ih =>
    cases bs with
    | nil => cases hf
    | cons b bs =>
      obtain ⟨hf, hfs⟩ := List.cons.inj hf
      obtain ⟨hg, hgs⟩ := List.cons.inj hg
      rw [hfg a b hf hg, ih hfs hgs]

theorem Table.ext_at? {α : Type} {t u : Table α} (hk : t.keys = u.keys)
    (h : ∀ i, t.at? i = u.at? i) : t = u := by
  apply ext
  have hzip : ∀ t : Table α, t.entries = t.keys.zip t.values := fun t =>
    (List.zip_unzip t.entries).symm.trans (by rw [List.unzip_eq_map]; rfl)
  have hv : t.values = u.values := List.ext_getElem? fun i => by
    rw [getElem?_values, h, getElem?_values]
  rw [hzip t, hk, hv, hzip u]

/-- Tables with the same names, and with the same values but for what `f` forgets. -/
theorem Table.ext_map {α β : Type} {f : α → β} {t u : Table α} (hf : t.map f = u.map f)
    (h : ∀ i a b, t.at? i = some a → u.at? i = some b → f a = f b → a = b) : t = u := by
  have hk : t.keys = u.keys := by rw [← keys_map f, hf, keys_map]
  refine ext_at? hk fun i => ?_
  have hi : (t.at? i).map f = (u.at? i).map f := by rw [← at?_map, hf, at?_map]
  cases ht : t.at? i with
  | none =>
    rw [ht, Option.map_none, eq_comm, Option.map_eq_none_iff] at hi
    exact hi.symm
  | some a =>
    rw [ht, Option.map_some, eq_comm, Option.map_eq_some_iff] at hi
    obtain ⟨b, hu, hab⟩ := hi
    rw [hu, h i a b ht hu hab.symm]

theorem InputValue.ext_type {v w : InputValue} (h : v.relabel unbind id = w.relabel unbind id)
    (ht : v.type = w.type) : v = w := by
  rw [relabel_unbind, relabel_unbind] at h
  cases v; cases w; cases ht; cases h
  rfl

theorem Field.ext_types {f g : Field} (h : f.relabel unbind = g.relabel unbind)
    (ht : f.type = g.type) (ha : f.arguments.map (·.type) = g.arguments.map (·.type)) : f = g := by
  have hargs : f.arguments = g.arguments :=
    List.ext_map (fun _ _ => InputValue.ext_type) (congrArg Field.arguments h) ha
  rw [relabel_unbind, relabel_unbind] at h
  cases f; cases g; cases ht; cases hargs; cases h
  rfl

theorem FieldSet.ext_ref? {b c : FieldSet} (h : b.relabel unbind = c.relabel unbind)
    (hr : ∀ p, b.ref? p = c.ref? p) : b = c := by
  have hinterfaces : b.interfaces = c.interfaces :=
    List.ext_getElem? fun i => hr (.interface i)
  have hfields : b.fields = c.fields := by
    refine Table.ext_map (congrArg FieldSet.fields h) fun i f g hf hg hfg => ?_
    refine Field.ext_types hfg ?_ (List.ext_getElem? fun j => ?_)
    · simpa [ref?, hf, hg] using hr (.field i)
    · have hj := hr (.argument i j)
      simp only [ref?, hf, hg, Option.bind_eq_bind, Option.bind_some, Option.pure_def] at hj
      simpa [Option.map_eq_bind, Function.comp_def] using hj
  cases b; cases c; cases hinterfaces; cases hfields
  rfl

namespace TypeDefinition

theorem body_ext_ref? {t u : TypeDefinition} (h : t.body.relabel unbind = u.body.relabel unbind)
    (hr : ∀ p, t.ref? p = u.ref? p) : t.body = u.body := by
  obtain ⟨_, _, _, b⟩ := t
  obtain ⟨_, _, _, c⟩ := u
  have hk : b.kind = c.kind := by
    rw [← TypeBody.kind_relabel (ρ := unbind), h, TypeBody.kind_relabel]
  cases b <;> cases c <;> cases hk
  case scalar.scalar => rfl
  case object.object b c =>
    exact congrArg TypeBody.object (FieldSet.ext_ref? (TypeBody.object.inj h) hr)
  case interface.interface b c =>
    exact congrArg TypeBody.interface (FieldSet.ext_ref? (TypeBody.interface.inj h) hr)
  case union.union rs ss =>
    exact congrArg TypeBody.union (List.ext_getElem? fun i => hr (.member i))
  case enum.enum vs ws =>
    have hvs := TypeBody.enum.inj h
    rw [funext EnumValue.relabel_unbind] at hvs
    simpa using hvs
  case input.input fs gs =>
    refine congrArg TypeBody.input (Table.ext_map (TypeBody.input.inj h) fun i v w hv hw hvw => ?_)
    refine InputValue.ext_type hvw ?_
    simpa [ref?, hv, hw] using hr (.inputField i)

/-- A type is known by what it says without bindings, and by its references. -/
theorem ext_ref? {t u : TypeDefinition} (h : t.relabel unbind = u.relabel unbind)
    (hr : ∀ p, t.ref? p = u.ref? p) : t = u := by
  have hbody : t.body = u.body := body_ext_ref? (congrArg TypeDefinition.body h) hr
  rw [relabel_unbind, relabel_unbind] at h
  cases t; cases u; cases hbody; cases h
  rfl

/-- Labels make the same of two types if they make the same of them without bindings, and of
their references. -/
theorem relabel_congr {ρ σ : Relabeling} {t u : TypeDefinition}
    (h : t.relabel (unbind.comp ρ) = u.relabel (unbind.comp σ))
    (hr : ∀ p, (t.ref? p).map ρ.ref = (u.ref? p).map σ.ref) : t.relabel ρ = u.relabel σ := by
  refine ext_ref? (by rw [relabel_relabel, relabel_relabel, h]) fun p => ?_
  rw [ref?_relabel, ref?_relabel, hr]

/-! ### Well-formed types -/

theorem WellFormed.reference {t : TypeDefinition} (h : t.WellFormed) {p : TypePath} {r : TypeRef}
    (hr : t.ref? p = some r) : r.WellFormed := by
  have hfieldSet : ∀ {b : FieldSet}, b.WellFormed → b.ref? p = some r → r.WellFormed := by
    intro b hb hr
    cases p with
    | interface i => exact (hb.interfaces.named r (List.mem_of_getElem? hr)).wellFormed
    | field i =>
      obtain ⟨f, hf, rfl⟩ := Option.map_eq_some_iff.mp hr
      exact (hb.fields f (Table.mem_values_iff_at?.mpr ⟨i, hf⟩)).type
    | argument i j =>
      obtain ⟨f, hf, hr⟩ := Option.bind_eq_some_iff.mp hr
      obtain ⟨a, ha, hr⟩ := Option.bind_eq_some_iff.mp hr
      cases hr
      have hfw := hb.fields f (Table.mem_values_iff_at?.mpr ⟨i, hf⟩)
      exact (hfw.arguments.wellFormed a (List.mem_of_getElem? ha)).type
    | member i => cases hr
    | inputField i => cases hr
  obtain ⟨description, name, directives, body⟩ := t
  have hbody := h.body
  cases body with
  | scalar => cases hr
  | object b => exact hfieldSet hbody hr
  | interface b => exact hfieldSet hbody hr
  | union rs =>
    cases p with
    | member i => exact (hbody r (List.mem_of_getElem? hr)).wellFormed
    | interface _ | field _ | argument _ _ | inputField _ => cases hr
  | enum vs => cases hr
  | input fs =>
    cases p with
    | inputField i =>
      obtain ⟨v, hv, rfl⟩ := Option.map_eq_some_iff.mp hr
      exact (hbody.2 v (Table.mem_values_iff_at?.mpr ⟨i, hv⟩)).type
    | interface _ | field _ | argument _ _ | member _ => cases hr

end TypeDefinition

theorem Document.WellFormed.reference {d : Document} (h : d.WellFormed) {p : RefPath} {r : TypeRef}
    (hr : d.ref? p = some r) : r.WellFormed := by
  cases p with
  | type slot p =>
    obtain ⟨t, ht, hr⟩ := Option.bind_eq_some_iff.mp hr
    exact (h.types t (Table.mem_values_iff_at?.mpr ⟨slot, ht⟩)).reference hr
  | directiveArgument i j =>
    obtain ⟨v, hv, hr⟩ := Option.bind_eq_some_iff.mp hr
    obtain ⟨a, ha, hr⟩ := Option.bind_eq_some_iff.mp hr
    cases hr
    have hw := h.directives v (Table.mem_values_iff_at?.mpr ⟨i, hv⟩)
    exact (hw.arguments.wellFormed a (List.mem_of_getElem? ha)).type
  | rootOperation i =>
    obtain ⟨s, hs, hr⟩ := Option.bind_eq_some_iff.mp hr
    obtain ⟨op, hop, hr⟩ := Option.bind_eq_some_iff.mp hr
    cases hr
    exact ((h.schema s hs).operations op (List.mem_of_getElem? hop)).wellFormed

/-- A well-formed document has no bindings. -/
theorem Document.WellFormed.binding {d : Document} (h : d.WellFormed) {p : RefPath} {r : TypeRef}
    (hr : d.ref? p = some r) : r.binding = none := (h.reference hr).binding

theorem RootOperation.ext_type {o q : RootOperation} (h : o.relabel unbind = q.relabel unbind)
    (ht : o.type = q.type) : o = q := by
  have hkind : o.kind = q.kind := (congrArg RootOperation.kind h :)
  cases o; cases q; cases ht; cases hkind
  rfl

theorem Schema.ext_types {s u : Schema} (h : s.relabel unbind = u.relabel unbind)
    (ht : s.operations.map (·.type) = u.operations.map (·.type)) : s = u := by
  have hoperations : s.operations = u.operations :=
    List.ext_map (fun _ _ => RootOperation.ext_type) (congrArg Schema.operations h) ht
  have hsame : ∀ s : Schema, s.relabel unbind =
      { s with operations := s.operations.map (RootOperation.relabel unbind) } := by
    intro s
    change Schema.mk (s.description.map id) _ _ = _
    rw [Directive.relabel_unbind_list, Option.map_id]
    rfl
  rw [hsame, hsame] at h
  cases s; cases u; cases hoperations; cases h
  rfl

theorem DirectiveDefinition.ext_types {v w : DirectiveDefinition}
    (h : v.relabel unbind = w.relabel unbind)
    (ht : v.arguments.map (·.type) = w.arguments.map (·.type)) : v = w := by
  have harguments : v.arguments = w.arguments :=
    List.ext_map (fun _ _ => InputValue.ext_type) (congrArg DirectiveDefinition.arguments h) ht
  have hsame : ∀ v : DirectiveDefinition, v.relabel unbind =
      { v with arguments := v.arguments.map (InputValue.relabel unbind id) } := by
    intro v
    change DirectiveDefinition.mk (v.description.map id) _ _ _ _ = _
    rw [Option.map_id]
    rfl
  rw [hsame, hsame] at h
  cases v; cases w; cases harguments; cases h
  rfl

/-- A document is known by what it says without bindings, and by its references. -/
theorem Document.ext_ref? {d e : Document} (h : d.relabel unbind = e.relabel unbind)
    (hr : ∀ p, d.ref? p = e.ref? p) : d = e := by
  have htypes : d.types = e.types := by
    refine Table.ext_map (congrArg Document.types h) fun i t u ht hu htu => ?_
    refine TypeDefinition.ext_ref? htu fun p => ?_
    simpa [ref?, ht, hu] using hr (.type i p)
  have hdirectives : d.directives = e.directives := by
    refine Table.ext_map (congrArg Document.directives h) fun i v w hv hw hvw => ?_
    refine DirectiveDefinition.ext_types hvw (List.ext_getElem? fun j => ?_)
    have hj := hr (.directiveArgument i j)
    simp only [ref?, hv, hw, Option.bind_eq_bind, Option.bind_some, Option.pure_def] at hj
    simpa [Option.map_eq_bind, Function.comp_def] using hj
  have hschema : d.schema = e.schema := by
    have hs : d.schema.map (Schema.relabel unbind) = e.schema.map (Schema.relabel unbind) :=
      congrArg Document.schema h
    cases hd : d.schema with
    | none =>
      rw [hd, Option.map_none, eq_comm, Option.map_eq_none_iff] at hs
      exact hs.symm
    | some s =>
      rw [hd, Option.map_some, eq_comm, Option.map_eq_some_iff] at hs
      obtain ⟨u, hu, hus⟩ := hs
      rw [hu, Schema.ext_types hus.symm (List.ext_getElem? fun j => ?_)]
      have hj := hr (.rootOperation j)
      simp only [ref?, hd, hu, Option.bind_eq_bind, Option.bind_some, Option.pure_def] at hj
      simpa [Option.map_eq_bind, Function.comp_def] using hj
  have hname : d.name = e.name := (congrArg Document.name h :)
  cases d; cases e; cases htypes; cases hdirectives; cases hschema; cases hname
  rfl

/-- A well-formed document has no bindings to lose. -/
theorem Document.WellFormed.relabel_unbind {d : Document} (h : d.WellFormed) :
    d.relabel unbind = d := by
  refine ext_ref? (d.relabel_relabel) fun p => ?_
  rw [ref?_relabel]
  refine (Option.map_congr (g := id) fun r hr => ?_).trans (Option.map_id_apply)
  have hb := h.binding hr
  cases r; cases hb
  rfl

theorem Document.WellFormed.types_unbind {d : Document} (h : d.WellFormed) :
    d.types.map (TypeDefinition.relabel unbind) = d.types :=
  congrArg Document.types h.relabel_unbind

/-! ### Changes of bindings -/

section ModifyRef

variable {ρ : Relabeling} {f : TypeRef → TypeRef} (hf : ∀ r, ρ.ref (f r) = ρ.ref r)

theorem List.map_modify {α β : Type} {f : α → α} {g : α → β} (h : ∀ a, g (f a) = g a) (l : List α)
    (i : Nat) : (l.modify i f).map g = l.map g := by
  refine List.ext_getElem? fun j => ?_
  rw [List.getElem?_map, List.getElem?_modify, List.getElem?_map]
  cases l[j]? with
  | none => rfl
  | some a => by_cases hij : i = j <;> simp [hij, h]

theorem Table.map_modify {α β : Type} {f : α → α} {g : α → β} (h : ∀ a, g (f a) = g a)
    (t : Table α) (i : Nat) : (t.modify i f).map g = t.map g :=
  ext (List.map_modify (g := fun e : String × α => (e.1, g e.2)) (fun e => by rw [h]) t.entries i)

include hf

theorem FieldSet.relabel_modifyRef (b : FieldSet) (p : TypePath) :
    (b.modifyRef f p).relabel ρ = b.relabel ρ := by
  cases p with
  | interface i => simp only [modifyRef, relabel, List.map_modify hf]
  | field i =>
    have hfield : ∀ fd : Field, ({ fd with type := f fd.type } : Field).relabel ρ = fd.relabel ρ :=
      fun fd => by simp only [Field.relabel, hf]
    simp only [modifyRef, relabel, Table.map_modify hfield]
  | argument i j =>
    have hargument : ∀ a : InputValue,
        ({ a with type := f a.type } : InputValue).relabel ρ id = a.relabel ρ id :=
      fun a => by simp only [InputValue.relabel, hf]
    simp only [modifyRef, relabel]
    rw [Table.map_modify fun fd => by simp only [Field.relabel, List.map_modify hargument]]
  | member i => rfl
  | inputField i => rfl

theorem TypeDefinition.relabel_modifyRef (t : TypeDefinition) (p : TypePath) :
    (t.modifyRef p f).relabel ρ = t.relabel ρ := by
  have hvalue : ∀ v : InputValue,
      ({ v with type := f v.type } : InputValue).relabel ρ ρ.inner = v.relabel ρ ρ.inner :=
    fun v => by simp only [InputValue.relabel, hf]
  obtain ⟨description, name, directives, body⟩ := t
  cases body with
  | scalar => rfl
  | object b =>
    simp only [modifyRef, relabel, TypeBody.relabel, FieldSet.relabel_modifyRef hf]
  | interface b =>
    simp only [modifyRef, relabel, TypeBody.relabel, FieldSet.relabel_modifyRef hf]
  | union rs =>
    cases p <;> simp only [modifyRef, relabel, TypeBody.relabel, List.map_modify hf]
  | enum vs => rfl
  | input fs =>
    cases p <;> simp only [modifyRef, relabel, TypeBody.relabel, Table.map_modify hvalue]

theorem TypeDefinition.relabel_mapTypes (t : TypeDefinition) :
    (t.mapTypes f).relabel ρ = t.relabel ρ := by
  have hvalue : ∀ (g : String → String) (v : InputValue),
      ({ v with type := f v.type } : InputValue).relabel ρ g = v.relabel ρ g :=
    fun g v => by simp only [InputValue.relabel, hf]
  have hfieldSet : ∀ b : FieldSet, (b.mapTypes f).relabel ρ = b.relabel ρ := by
    intro b
    simp only [FieldSet.mapTypes, FieldSet.relabel, List.map_map, Table.map_map, Function.comp_def,
      Field.relabel, hvalue, hf]
    rfl
  obtain ⟨description, name, directives, body⟩ := t
  cases body with
  | scalar => rfl
  | object b => simp only [mapTypes, TypeBody.mapTypes, relabel, TypeBody.relabel, hfieldSet]
  | interface b => simp only [mapTypes, TypeBody.mapTypes, relabel, TypeBody.relabel, hfieldSet]
  | union rs =>
    simp only [mapTypes, TypeBody.mapTypes, relabel, TypeBody.relabel, List.map_map,
      Function.comp_def, hf]
  | enum vs => rfl
  | input fs =>
    simp only [mapTypes, TypeBody.mapTypes, relabel, TypeBody.relabel, Table.map_map,
      Function.comp_def, hvalue]

/-- A change of a reference that labels hide cannot be seen once they are put on. -/
theorem Document.relabel_modifyRef (d : Document) (p : RefPath) :
    (d.modifyRef f p).relabel ρ = d.relabel ρ := by
  cases p with
  | type slot p =>
    simp only [modifyRef, relabel]
    rw [Table.map_modify fun t => TypeDefinition.relabel_modifyRef hf t p]
  | directiveArgument i j =>
    have hargument : ∀ a : InputValue,
        ({ a with type := f a.type } : InputValue).relabel ρ id = a.relabel ρ id :=
      fun a => by simp only [InputValue.relabel, hf]
    simp only [modifyRef, relabel]
    rw [Table.map_modify fun v => by
      simp only [DirectiveDefinition.relabel, List.map_modify hargument]]
  | rootOperation i =>
    have hop : ∀ op : RootOperation,
        ({ op with type := f op.type } : RootOperation).relabel ρ = op.relabel ρ :=
      fun op => by simp only [RootOperation.relabel, hf]
    simp only [modifyRef, relabel, Option.map_map, Function.comp_def, Schema.relabel,
      List.map_modify hop]
    rfl

end ModifyRef

end SchemaLang
