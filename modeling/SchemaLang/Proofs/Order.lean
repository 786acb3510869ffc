import SchemaLang.Proofs.Causes
import SchemaLang.Proofs.ParseAppend
import SchemaLang.Proofs.PlainRegistry

/-! The order of statements. Texts on lines of their own may be put in any order if they define
no name twice: what is read are the same definitions in another order, every name stands for the
same, and so what is reported, what comes out and what is stored are the same but for places. -/

namespace SchemaLang

open Relabeling

/-! ### Reading -/

section

variable {texts texts' : List String} {context : String}

/-- Texts in another order are read as the same definitions in another order. -/
theorem exists_parse_perm (hperm : texts.Perm texts')
    (hclean : ∀ s ∈ texts, (parse s context).diagnostics = [])
    (htypes : (texts.flatMap fun s => (parse s context).document.types.keys).Nodup)
    (hdirectives : (texts.flatMap fun s => (parse s context).document.directives.keys).Nodup)
    (hschema : (texts.filterMap fun s => (parse s context).document.schema).length ≤ 1) :
    ∃ d e : Document, parse ("\n".intercalate texts) context = ⟨d, [], false⟩ ∧
      parse ("\n".intercalate texts') context = ⟨e, [], false⟩ ∧
      (d.relabel .plain).Rearranged (e.relabel .plain) := by
  have hclean' : ∀ s ∈ texts', (parse s context).diagnostics = [] := fun s hs =>
    hclean s (hperm.mem_iff.mpr hs)
  obtain ⟨d, hd, hplain⟩ := exists_parse_intercalate hclean
  obtain ⟨e, he, hplain'⟩ := exists_parse_intercalate hclean'
  refine ⟨d, e, hd, he, ?_⟩
  rw [hplain, hplain']
  refine Document.rearranged_appendAll context (hperm.map _) ?_ ?_ ?_
  · rw [List.flatMap_map]
    simpa only [Document.types_relabel, Table.keys_map] using htypes
  · rw [List.flatMap_map]
    simpa only [Document.relabel, Table.keys_map] using hdirectives
  · have hmap : texts.filterMap (fun s => ((parse s context).document.relabel .plain).schema) =
        (texts.filterMap fun s => (parse s context).document.schema).map (Schema.relabel .plain) :=
      List.map_filterMap.symm
    rw [List.filterMap_map]
    exact (congrArg List.length hmap).trans_le ((List.length_map _).trans_le hschema)

end

namespace Registry

/-! ### Documents with the same definitions -/

section

variable {reg : Registry} {context source source' : String} {d e : Document}
  (hd : parse source context = ⟨d, [], false⟩) (he : parse source' context = ⟨e, [], false⟩)
  (h : (d.relabel .plain).Rearranged (e.relabel .plain))

include h

theorem plain_meaning?_of_rearranged (n : String) :
    (reg.meaning? context d n).map (TypeDefinition.relabel .plain) =
      (reg.meaning? context e n).map (TypeDefinition.relabel .plain) := by
  rw [relabel_meaning?, h.get?_eq, relabel_meaning?]

theorem settle_of_rearranged : reg.settle context d = reg.settle context e :=
  funext fun n => settle_congr (plain_meaning?_of_rearranged h n)

include hd he

/-- The same is reported, but for places and order. -/
theorem perm_causes_of_rearranged :
    ((reg.examine context source).diagnostics.map (·.cause)).Perm
      ((reg.examine context source').diagnostics.map (·.cause)) := by
  refine (perm_causes_examine hd).trans (.trans ?_ (perm_causes_examine he).symm)
  have hperm := @Document.Rearranged.perm_causes (reg.settle context d)
    (fun n => (reg.meaning? context d n).map (TypeDefinition.relabel .plain)) context _ _ h
  rw [Document.causes_relabel, settle_of_rearranged h, funext (plain_meaning?_of_rearranged h),
    Document.causes_relabel] at hperm
  rwa [settle_of_rearranged h]

theorem isOk_of_rearranged :
    (reg.examine context source).isOk = (reg.examine context source').isOk := by
  have hlen := (@perm_causes_of_rearranged reg _ _ _ _ _ hd he h).length_eq
  rw [List.length_map, List.length_map] at hlen
  rw [Loaded.isOk, Loaded.isOk, Bool.eq_iff_iff, List.isEmpty_iff_length_eq_zero,
    List.isEmpty_iff_length_eq_zero, hlen]

/-- What comes out compares equal. -/
theorem beq_of_rearranged :
    ((reg.examine context source).document == (reg.examine context source').document) = true := by
  have hsame : ∀ {source : String} {d : Document}, parse source context = ⟨d, [], false⟩ →
      (reg.examine context source).document.relabel .bare = d.relabel .bare := by
    intro source d hparse
    rw [document_examine (by rw [hparse]), hparse]
    exact reg.relabel_resolve context d _ fun _ _ => rfl
  have hbare : (d.relabel .bare).Rearranged (e.relabel .bare) := by
    have hunbind := h.relabel .unbind
    rwa [Document.relabel_relabel, Document.relabel_relabel] at hunbind
  rw [← Document.beq_relabel (ρ := .bare) rfl rfl, hsame hd, hsame he]
  exact hbare.beq

/-- The types that are stored are the same under each name, but for places. -/
theorem plain_newTypes_of_rearranged (n : String) :
    ((reg.newTypes context source).get? n).map (TypeDefinition.relabel .plain) =
      ((reg.newTypes context source').get? n).map (TypeDefinition.relabel .plain) := by
  rw [← Table.get?_map, ← Table.get?_map, plain_newTypes, plain_newTypes, hd, he,
    settle_of_rearranged h]
  exact Table.get?_of_perm (Table.perm_map _ h.types) n

end

/-- Texts that are read without complaint, that define no type and no directive twice, and of which
one at most has a schema, may stand in any order: what comes out compares equal, the verdict is the
same, the same is reported but for places and order, and every name leads to the same type
afterwards but for places. -/
theorem load_perm (reg : Registry) (context : String) (persistence : Persistence)
    {texts texts' : List String} (hperm : texts.Perm texts')
    (hclean : ∀ s ∈ texts, (parse s context).diagnostics = [])
    (htypes : (texts.flatMap fun s => (parse s context).document.types.keys).Nodup)
    (hdirectives : (texts.flatMap fun s => (parse s context).document.directives.keys).Nodup)
    (hschema : (texts.filterMap fun s => (parse s context).document.schema).length ≤ 1) :
    let out := reg.load ("\n".intercalate texts) ⟨some context, persistence⟩
    let out' := reg.load ("\n".intercalate texts') ⟨some context, persistence⟩
    (out.1.document == out'.1.document) = true ∧ out.1.isOk = out'.1.isOk ∧
      (out.1.diagnostics.map (·.cause)).Perm (out'.1.diagnostics.map (·.cause)) ∧
      ∀ c n, out.2.plain.type? c n = out'.2.plain.type? c n := by
  intro out out'
  obtain ⟨d, e, hd, he, h⟩ := exists_parse_perm hperm hclean htypes hdirectives hschema
  have hok : out.1.isOk = out'.1.isOk := isOk_of_rearranged hd he h
  refine ⟨beq_of_rearranged hd he h, hok, perm_causes_of_rearranged hd he h, fun c n => ?_⟩
  have hout := reg.load_registry ("\n".intercalate texts) ⟨some context, persistence⟩
  have hout' := reg.load_registry ("\n".intercalate texts') ⟨some context, persistence⟩
  rw [type?_plain, type?_plain, hout, hout']
  by_cases hstore : persistence = .onSuccess ∧ out.1.isOk = true
  · rw [if_pos hstore, if_pos ⟨hstore.1, hok ▸ hstore.2⟩, type?_setTypes, type?_setTypes]
    split
    next =>
      rw [Option.map_or, Option.map_or]
      exact congrArg (Option.or · _) (plain_newTypes_of_rearranged hd he h n)
    next => rfl
  · rw [if_neg hstore, if_neg fun hstore' => hstore ⟨hstore'.1, hok ▸ hstore'.2⟩]

/-- A union before and behind its member. -/
theorem load_perm_union :
    let texts := ["union B = A", "scalar A"]
    let out := (Registry.empty "D").load ("\n".intercalate texts) ⟨some "D", .onSuccess⟩
    let out' := (Registry.empty "D").load ("\n".intercalate texts.reverse) ⟨some "D", .onSuccess⟩
    (out.1.document == out'.1.document) = true ∧ out.1.isOk = out'.1.isOk ∧
      (out.1.diagnostics.map (·.cause)).Perm (out'.1.diagnostics.map (·.cause)) ∧
      ∀ c n, out.2.plain.type? c n = out'.2.plain.type? c n := by
  intro texts out out'
  have hunion : (let p := parse "union B = A" "D"
      (p.diagnostics.length, p.document.types.keys, p.document.directives.keys,
        p.document.schema.isSome)) = (0, ["B"], [], false) := by decide +kernel
  have hscalar : (let p := parse "scalar A" "D"
      (p.diagnostics.length, p.document.types.keys, p.document.directives.keys,
        p.document.schema.isSome)) = (0, ["A"], [], false) := by decide +kernel
  simp only [Prod.mk.injEq, List.length_eq_zero_iff, Option.isSome_eq_false_iff,
    Option.isNone_iff_eq_none] at hunion hscalar
  refine load_perm (Registry.empty "D") "D" .onSuccess (List.reverse_perm texts).symm ?_ ?_ ?_ ?_
  · exact List.forall_mem_cons.mpr ⟨hunion.1, List.forall_mem_singleton.mpr hscalar.1⟩
  · simp [texts, hunion.2.1, hscalar.2.1]
  · simp [texts, hunion.2.2.1, hscalar.2.2.1]
  · simp [texts, hunion.2.2.2, hscalar.2.2.2]

end Registry

end SchemaLang
