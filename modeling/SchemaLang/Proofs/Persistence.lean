import SchemaLang.Load
import SchemaLang.Proofs.Resolution

/-! What loading leaves in a registry: nothing if anything is wrong, and else exactly the types
of the document, with bindings that hold outside of it. -/

namespace SchemaLang

/-- A binding as it holds outside of the document in which it was made, which is then known as
`context`. -/
def Binding.outside (context : String) : Binding → Binding
  | here _ kind => stored context kind
  | b => b

theorem TypeRef.store_eq (context : String) :
    TypeRef.store context = fun r => { r with binding := r.binding.map (.outside context) } := by
  funext r
  obtain ⟨name, wrappers, location, binding⟩ := r
  cases binding with
  | none => rfl
  | some b => cases b <;> rfl

namespace Registry

/-! ### Storing types -/

variable {context : String}

/-- The document of that name, or the one that would be made for it. -/
def documentOrEmpty (reg : Registry) (name : String) : Document :=
  (reg.document? name).getD (.empty name)

theorem document?_insert (reg : Registry) (c c' : String) (d : Document) :
    ({ reg with documents := reg.documents.insert c d } : Registry).document? c' =
      if c' = c then some d else reg.document? c' := Table.get?_insert

theorem setType_eq (reg : Registry) (context name : String) (t : TypeDefinition) :
    reg.setType context name t = { reg with
      documents := reg.documents.insert context { reg.documentOrEmpty context with
        types := (reg.documentOrEmpty context).types.insert name t } } := rfl

theorem documentOrEmpty_setType (reg : Registry) (context name : String) (t : TypeDefinition) :
    (reg.setType context name t).documentOrEmpty context =
      { reg.documentOrEmpty context with
        types := (reg.documentOrEmpty context).types.insert name t } := by
  rw [setType_eq, documentOrEmpty, document?_insert, if_pos rfl]
  rfl

/-- Types stored one after the other are put into the document all at once. -/
theorem foldl_setType (f : TypeDefinition → TypeDefinition) (ts : List TypeDefinition)
    (hne : ts ≠ []) (reg : Registry) :
    ts.foldl (fun reg t => reg.setType context t.name.value (f t)) reg = { reg with
      documents := reg.documents.insert context { reg.documentOrEmpty context with
        types := (reg.documentOrEmpty context).types.insertAll
          (ts.map fun t => (t.name.value, f t)) } } := by
  induction ts generalizing reg with
  | nil => exact absurd rfl hne
  | cons t ts ih =>
    by_cases hts : ts = []
    · subst hts
      rfl
    · rw [List.foldl_cons, ih hts, documentOrEmpty_setType, setType_eq]
      simp

theorem storeTypes_eq (reg : Registry) (context : String) {d : Document} (hd : d.Keyed)
    (hne : d.types.isEmpty = false) :
    reg.storeTypes context d = { reg with
      documents := reg.documents.insert context { reg.documentOrEmpty context with
        types := (reg.documentOrEmpty context).types.insertAll
          (d.types.map fun t => t.mapTypes (TypeRef.store context)).entries } } := by
  have hvalues : d.types.values ≠ [] := by
    intro h
    have : d.types.entries = [] := List.map_eq_nil_iff.mp h
    simp [Table.isEmpty, this] at hne
  have hentries : (d.types.map fun t => t.mapTypes (TypeRef.store context)).entries =
      d.types.values.map fun t => (t.name.value, t.mapRefs (TypeRef.store context)) := by
    rw [hd.types.entries_map]
    exact List.map_congr_left fun t _ => by rw [TypeDefinition.mapRefs_eq]
  rw [storeTypes, foldl_setType _ _ hvalues, hentries]

theorem storeTypes_of_isEmpty (reg : Registry) (context : String) {d : Document}
    (h : d.types.isEmpty = true) : reg.storeTypes context d = reg := by
  have hentries : d.types.entries = [] := List.isEmpty_iff.mp h
  rw [storeTypes, Table.values, hentries]
  rfl

theorem documentOrEmpty_storeTypes (reg : Registry) (context : String) {d : Document}
    (hd : d.Keyed) :
    (reg.storeTypes context d).documentOrEmpty context = { reg.documentOrEmpty context with
      types := (reg.documentOrEmpty context).types.insertAll
        (d.types.map fun t => t.mapTypes (TypeRef.store context)).entries } := by
  cases hne : d.types.isEmpty with
  | true =>
    have hentries : d.types.entries = [] := List.isEmpty_iff.mp hne
    rw [storeTypes_of_isEmpty reg context hne, Table.entries_map, hentries]
    rfl
  | false =>
    rw [storeTypes_eq reg context hd hne, documentOrEmpty, document?_insert, if_pos rfl]
    rfl

theorem type?_eq (reg : Registry) (context n : String) :
    reg.type? context n = (reg.documentOrEmpty context).get? n := by
  unfold type? documentOrEmpty
  cases reg.document? context <;> rfl

/-- A type of the document comes before what was stored under its name. -/
theorem type?_storeTypes (reg : Registry) (context n : String) {d : Document} (hd : d.Keyed) :
    (reg.storeTypes context d).type? context n =
      ((d.get? n).map (·.mapTypes (TypeRef.store context))).or (reg.type? context n) := by
  rw [type?_eq, type?_eq, documentOrEmpty_storeTypes reg context hd, Document.get?, Document.get?,
    Document.get?, ← Table.get?_map]
  exact Table.get?_insertAll (Table.distinct _) _ n

/-- The registry `after` is `reg` with the types of `d` stored in its document `context`. -/
structure Stores (reg : Registry) (context : String) (d : Document) (after : Registry) : Prop where
  /-- The types of `d` are stored under their names. Their references are bound as it holds outside
  of `d`, at every path, and nothing else of them is changed. -/
  stored : ∀ n t, d.get? n = some t → ∃ u, after.type? context n = some u ∧
    u = t.mapTypes (fun r => { r with binding := r.binding.map (.outside context) }) ∧
    ∀ p, u.ref? p = (t.ref? p).map fun r => { r with binding := r.binding.map (.outside context) }
  /-- The other types of the document are those that it had. -/
  others : ∀ n, d.get? n = none → after.type? context n = reg.type? context n
  /-- The names that it had keep their slots, and new names come behind in the order of `d`. -/
  order : (after.documentOrEmpty context).types.keys =
    (reg.documentOrEmpty context).types.keys ++
      d.types.keys.filter (· ∉ (reg.documentOrEmpty context).types.keys)
  /-- What the document has besides types stays. -/
  rest : after.documentOrEmpty context =
    { reg.documentOrEmpty context with types := (after.documentOrEmpty context).types }
  documents : ∀ c, c ≠ context → after.document? c = reg.document? c
  /-- The document is made if there is none, but not for no types. -/
  made : after.documents.keys = reg.documents.keys ++
    if d.types.isEmpty ∨ context ∈ reg.documents.keys then [] else [context]
  active : after.active = reg.active
  fallback : after.fallback = reg.fallback

theorem stores_storeTypes {d : Document} (hd : d.Keyed) (reg : Registry) (context : String) :
    reg.Stores context d (reg.storeTypes context d) where
  stored := by
    intro n t ht
    refine ⟨_, by rw [type?_storeTypes reg context n hd, ht]; rfl, ?_, fun p => ?_⟩
    · rw [TypeRef.store_eq]
    · rw [TypeDefinition.ref?_mapTypes, TypeRef.store_eq]
  others := by
    intro n hn
    rw [type?_storeTypes reg context n hd, hn]
    rfl
  order := by
    have hkeys : (d.types.map fun t => t.mapTypes (TypeRef.store context)).keys = d.types.keys :=
      Table.keys_map _
    rw [documentOrEmpty_storeTypes reg context hd, ← hkeys]
    exact Table.keys_insertAll (Table.distinct _) _
  rest := by rw [documentOrEmpty_storeTypes reg context hd]
  documents := by
    intro c hc
    cases hne : d.types.isEmpty with
    | true => rw [storeTypes_of_isEmpty reg context hne]
    | false => rw [storeTypes_eq reg context hd hne, document?_insert, if_neg hc]
  made := by
    cases hne : d.types.isEmpty with
    | true => simp [storeTypes_of_isEmpty reg context hne]
    | false =>
      rw [storeTypes_eq reg context hd hne]
      by_cases hc : context ∈ reg.documents.keys
      · simp [hc, Table.keys_insert_of_mem]
      · simp [hc, Table.keys_insert_of_not_mem]
  active := by
    cases hne : d.types.isEmpty with
    | true => rw [storeTypes_of_isEmpty reg context hne]
    | false => rw [storeTypes_eq reg context hd hne]
  fallback := by
    cases hne : d.types.isEmpty with
    | true => rw [storeTypes_of_isEmpty reg context hne]
    | false => rw [storeTypes_eq reg context hd hne]

/-! ### Loading -/

theorem keyed_examine (reg : Registry) (context source : String) :
    (reg.examine context source).document.Keyed := by
  unfold examine
  dsimp only
  split
  · exact keyed_parse source context
  · exact keyed_resolve (keyed_parse source context) _

theorem diagnostics_ne_nil_of_aborted (reg : Registry) (context source : String)
    (h : (reg.examine context source).aborted = true) :
    (reg.examine context source).diagnostics ≠ [] := by
  unfold examine at *
  dsimp only at *
  split at h
  next ha => rw [if_pos ha]; exact Parsed.diagnostics_ne_nil_of_aborted ha
  next => cases h

/-- Loading leaves the registry as it was if reading stops early, if anything is reported, or if
nothing is to be stored. Else it stores the types of the document that it returns, and changes
nothing but that. What it returns does not depend on whether types are to be stored. -/
theorem load_stores (reg : Registry) (source : String) (options : LoadOptions) :
    let context := options.document.getD reg.current
    let (out, after) := reg.load source options
    ((out.aborted = true ∨ out.diagnostics ≠ [] ∨ options.persistence = .never) → after = reg) ∧
    (¬ (out.aborted = true ∨ out.diagnostics ≠ [] ∨ options.persistence = .never) →
      reg.Stores context out.document after) ∧
    ∀ p, (reg.load source { options with persistence := p }).1 = out := by
  dsimp only [load]
  generalize options.document.getD reg.current = context
  have hiff : ¬ ((reg.examine context source).aborted = true ∨
      (reg.examine context source).diagnostics ≠ [] ∨ options.persistence = .never) ↔
        options.persistence = .onSuccess ∧ (reg.examine context source).isOk = true := by
    have habort := reg.diagnostics_ne_nil_of_aborted context source
    have hp : options.persistence = .never ↔ ¬ options.persistence = .onSuccess := by
      cases options.persistence <;> simp
    simp only [Loaded.isOk, List.isEmpty_iff]
    tauto
  refine ⟨fun h => if_neg fun hn => hiff.mpr hn h, fun h => ?_, fun _ => rfl⟩
  rw [if_pos (hiff.mp h)]
  exact stores_storeTypes (reg.keyed_examine context source) reg context

end Registry

end SchemaLang
