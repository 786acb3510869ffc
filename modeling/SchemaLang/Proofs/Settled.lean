import SchemaLang.Proofs.Persistence
import SchemaLang.Proofs.Soundness

/-! What loading stores, told by what names stand for. The types that end up in a registry are
those that were read, each reference bound to what its name stands for. Types are stored into
a document by putting them behind those that it has. -/

namespace SchemaLang

namespace Registry

variable {reg : Registry} {context : String} {d e : Document}

/-! ### Bindings that are stored -/

/-- What a name stands for outside of the document `d`, once its types are stored. -/
def settle (reg : Registry) (context : String) (d : Document) (name : String) : Option Binding :=
  if isBuiltinScalar name then some .builtin
  else (reg.meaning? context d name).map fun t => .stored context t.kind

theorem settle_eq_lookup (n : String) :
    reg.settle context d n = (reg.lookup context d n).map (.outside context) := by
  unfold settle
  cases hn : isBuiltinScalar n with
  | true => simp [lookup, hn, Binding.outside]
  | false =>
    unfold meaning?
    cases ht : d.get? n with
    | some t =>
      obtain ⟨slot, -, hl⟩ := reg.lookup_of_get? context hn ht
      simp [hl, Binding.outside]
    | none =>
      rw [lookup_of_get?_eq_none hn ht, Option.none_or, Option.map_map]
      rfl

/-- The types of a resolved document as they are stored: each as it was read, with its references
bound to what their names stand for. -/
theorem stored_resolve (h : (reg.resolve context d d.sites).diagnostics = []) :
    ((reg.resolve context d d.sites).document.types.map
        fun t => t.mapTypes (TypeRef.store context)) =
      d.types.map (TypeDefinition.relabel (.settling (reg.settle context d))) := by
  have hrelabel : (reg.resolve context d d.sites).document.relabel .unbind = d.relabel .unbind :=
    reg.relabel_resolve context d d.sites fun _ _ => rfl
  have hstore (r : TypeRef) :
      Relabeling.unbind.ref (r.store context) = Relabeling.unbind.ref r := by
    rw [TypeRef.store_eq]
    rfl
  refine Table.ext_map (f := TypeDefinition.relabel .unbind) ?_ fun i a b ha hb hab => ?_
  · rw [Table.map_map, Table.map_map]
    simp only [Function.comp_def, TypeDefinition.relabel_mapTypes hstore,
      TypeDefinition.relabel_relabel]
    exact congrArg Document.types hrelabel
  · rw [Table.at?_map, Option.map_eq_some_iff] at ha hb
    obtain ⟨t, ht, rfl⟩ := ha
    obtain ⟨u, hu, rfl⟩ := hb
    refine TypeDefinition.ext_ref? hab fun p => ?_
    have href := @ref?_resolve reg context d (.type i p)
    simp only [Document.ref?, ht, hu, Option.bind_eq_bind, Option.bind_some] at href
    rw [TypeDefinition.ref?_mapTypes, href, TypeDefinition.ref?_relabel, Option.map_map]
    refine Option.map_congr fun r hr => ?_
    obtain ⟨b, hb⟩ := diagnostics_resolve_eq_nil_iff.mp h (.type i p) r
      (by simp [Document.ref?, hu, hr])
    have hl : reg.lookup context d r.name = some b := lookup_of_bindingFor hb
    simp only [Function.comp, rebind, hb, TypeRef.store_eq, Relabeling.settling,
      Relabeling.binding, settle_eq_lookup, hl]

/-! ### Storing types -/

/-- Types put one after the other under their keys in the context document. -/
def setTypes (reg : Registry) (context : String) (es : List (String × TypeDefinition)) : Registry :=
  es.foldl (fun reg e => reg.setType context e.1 e.2) reg

theorem setTypes_append (reg : Registry) (context : String)
    (es fs : List (String × TypeDefinition)) :
    reg.setTypes context (es ++ fs) = (reg.setTypes context es).setTypes context fs :=
  List.foldl_append

theorem storeTypes_eq_setTypes (hd : d.Keyed) : reg.storeTypes context d =
    reg.setTypes context (d.types.map fun t => t.mapTypes (TypeRef.store context)).entries := by
  rw [storeTypes, setTypes, hd.types.entries_map, List.foldl_map]
  simp only [TypeDefinition.mapRefs_eq]

theorem documentOrEmpty_setTypes (reg : Registry) (context : String)
    (es : List (String × TypeDefinition)) :
    (reg.setTypes context es).documentOrEmpty context = { reg.documentOrEmpty context with
      types := (reg.documentOrEmpty context).types.insertAll es } := by
  induction es generalizing reg with
  | nil => rfl
  | cons e es ih =>
    rw [setTypes, List.foldl_cons]
    exact (ih _).trans (by rw [documentOrEmpty_setType]; rfl)

theorem document?_setTypes_of_ne {c : String} (hc : c ≠ context) (reg : Registry)
    (es : List (String × TypeDefinition)) :
    (reg.setTypes context es).document? c = reg.document? c := by
  induction es generalizing reg with
  | nil => rfl
  | cons e es ih =>
    rw [setTypes, List.foldl_cons]
    refine (ih _).trans ?_
    rw [setType_eq, document?_insert, if_neg hc]

theorem document?_setType (reg : Registry) (context name : String) (t : TypeDefinition) :
    (reg.setType context name t).document? context =
      some ((reg.setType context name t).documentOrEmpty context) := by
  rw [documentOrEmpty, setType_eq, document?_insert, if_pos rfl]
  rfl

/-- The document is made if there is none. -/
theorem document?_setTypes {es : List (String × TypeDefinition)} (hne : es ≠ []) (reg : Registry)
    (context : String) : (reg.setTypes context es).document? context =
      some ((reg.setTypes context es).documentOrEmpty context) := by
  obtain ⟨es, e, rfl⟩ := List.eq_nil_or_concat es |>.resolve_left hne
  rw [List.concat_eq_append, setTypes_append]
  exact document?_setType _ context e.1 e.2

theorem documentOrEmpty_induction {P : String → Document → Prop}
    (hempty : ∀ c, P c (.empty c)) (h : ∀ c d, reg.document? c = some d → P c d) (c : String) :
    P c (reg.documentOrEmpty c) := by
  unfold documentOrEmpty
  cases hd : reg.document? c with
  | none => exact hempty c
  | some d => exact h c d hd

/-- Storing types changes one document, if any: the types are put behind those that it has. -/
theorem eq_of_document?_setTypes {t : Table TypeDefinition} {c : String}
    (h : (reg.setTypes context t.entries).document? c = some d) : reg.document? c = some d ∨
      c = context ∧ d = (reg.documentOrEmpty context).append (.ofTypes t) := by
  by_cases hc : c = context
  · subst hc
    by_cases hne : t.entries = []
    · rw [hne] at h
      exact .inl h
    · rw [document?_setTypes hne, documentOrEmpty_setTypes] at h
      exact .inr ⟨rfl, (Option.some.inj h).symm⟩
  · rw [document?_setTypes_of_ne hc] at h
    exact .inl h

/-! ### Loading -/

/-- The types that a text stores if nothing is wrong with it. -/
def newTypes (reg : Registry) (context source : String) : Table TypeDefinition :=
  let d := (parse source context).document
  d.types.map (TypeDefinition.relabel (.settling (reg.settle context d)))

/-- The types of a text as they are stored, but for their bindings. -/
theorem relabel_newTypes (reg : Registry) (context source : String) :
    (reg.newTypes context source).map (TypeDefinition.relabel .unbind) =
      (parse source context).document.types.map (TypeDefinition.relabel .unbind) := by
  rw [newTypes, Table.map_map]
  simp only [Function.comp_def, TypeDefinition.relabel_relabel]
  rfl

/-- The context document with the types of a text behind those that it has. -/
def joined (reg : Registry) (context source : String) : Document :=
  (reg.documentOrEmpty context).append (.ofTypes (reg.newTypes context source))

/-- What a name means while a text is loaded is what it means in the document afterwards. -/
theorem relabel_get?_joined (reg : Registry) (context source n : String) :
    ((reg.joined context source).get? n).map (TypeDefinition.relabel .unbind) =
      (reg.meaning? context (parse source context).document n).map
        (TypeDefinition.relabel .unbind) := by
  have hnew : ((reg.newTypes context source).get? n).map (TypeDefinition.relabel .unbind) =
      ((parse source context).document.get? n).map (TypeDefinition.relabel .unbind) := by
    rw [← Table.get?_map, relabel_newTypes, Table.get?_map]
    rfl
  rw [joined, Document.get?_append, meaning?, type?_eq, Option.map_or, Option.map_or]
  exact congrArg (Option.or · _) hnew

theorem document_examine {source : String} (h : (parse source context).aborted = false) :
    (reg.examine context source).document = (reg.resolve context (parse source context).document
      (parse source context).document.sites).document := by
  rw [examine, h]
  rfl

theorem keys_examine (reg : Registry) (context source : String) :
    (reg.examine context source).document.types.keys =
      (parse source context).document.types.keys := by
  unfold examine
  dsimp only
  split
  next => rfl
  next => exact Document.keys_of_kinds (reg.kinds_resolve _ _ _)

theorem storeTypes_examine {source : String} (h : (reg.examine context source).isOk = true) :
    reg.storeTypes context (reg.examine context source).document =
      reg.setTypes context (reg.newTypes context source).entries := by
  have hclean := ((reg.examine_isOk_iff context source).mp h).1
  have hab : (parse source context).aborted = false := by
    rw [← Bool.not_eq_true]
    exact fun hab => Parsed.diagnostics_ne_nil_of_aborted hab hclean
  have hnil : (reg.resolve context (parse source context).document
      (parse source context).sites).diagnostics = [] := by
    simp only [Loaded.isOk, examine, hab, Bool.false_eq_true, if_false, List.isEmpty_iff,
      List.append_eq_nil_iff] at h
    exact h.1.2
  rw [storeTypes_eq_setTypes (reg.keyed_examine context source), document_examine hab,
    stored_resolve hnil]
  rfl

/-- Loading leaves the registry alone, or stores the types of the text behind those of the context
document. -/
theorem load_registry (reg : Registry) (source : String) (options : LoadOptions) :
    let context := options.document.getD reg.current
    (reg.load source options).2 =
      if options.persistence = .onSuccess ∧ (reg.load source options).1.isOk = true then
        reg.setTypes context (reg.newTypes context source).entries
      else reg := by
  intro context
  by_cases h : options.persistence = .onSuccess ∧ (reg.load source options).1.isOk = true
  · exact (if_pos h).trans ((storeTypes_examine h.2).trans (if_pos h).symm)
  · exact (if_neg h).trans (if_neg h).symm

end Registry

end SchemaLang
