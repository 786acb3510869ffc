import SchemaLang.Proofs.ParseAppend
import SchemaLang.Proofs.PlainRegistry

/-! Two texts loaded one after the other, and the same texts loaded as one. If the second text
defines no type that the first one defines or refers to, then every name stands for the same in
both ways of loading, and the registries afterwards are the same but for places in the texts. -/

namespace SchemaLang

open Relabeling

namespace Registry

variable {reg : Registry} {context a b : String}

/-! ### What names stand for -/

/-- A name stands for the same type, but for labels, whether the first text was loaded before the
second one or is read with it. -/
theorem bare_meaning?_append (reg : Registry) (context a n : String) {d e : Document}
    (he : e.relabel .bare = d.relabel .bare) :
    ((reg.setTypes context (reg.newTypes context a).entries).meaning? context d n).map
        (TypeDefinition.relabel .bare) =
      (reg.meaning? context ((parse a context).document.append e) n).map
        (TypeDefinition.relabel .bare) := by
  have hbare : ∀ t : Option TypeDefinition, t.map (TypeDefinition.relabel .bare) =
      (t.map (TypeDefinition.relabel .unbind)).map (TypeDefinition.relabel .plain) := by
    intro t
    rw [Option.map_map]
    exact Option.map_congr fun t _ => t.relabel_relabel.symm
  have hjoined : (reg.setTypes context (reg.newTypes context a).entries).type? context n =
      (reg.joined context a).get? n := by
    rw [type?_eq, documentOrEmpty_setTypes]
    rfl
  have hfirst : ((reg.setTypes context (reg.newTypes context a).entries).type? context n).map
      (TypeDefinition.relabel .bare) = (reg.meaning? context (parse a context).document n).map
        (TypeDefinition.relabel .bare) := by
    rw [hjoined, hbare, relabel_get?_joined, ← hbare]
  have hde : (d.get? n).map (TypeDefinition.relabel .bare) =
      (e.get? n).map (TypeDefinition.relabel .bare) := by
    rw [← Document.get?_relabel, ← he, Document.get?_relabel]
  simp only [meaning?, Option.map_or] at hfirst ⊢
  rw [hfirst, hde, Document.get?_append, Option.map_or, Option.or_assoc]

/-- Types with their references bound by name do not change if all names that they mention stand
for the same. -/
theorem settling_congr {d : Document} {f g : String → Option Binding}
    (h : ∀ r, d.Mentions r → f r.name = g r.name) :
    d.types.map (TypeDefinition.relabel (.settling f)) =
      d.types.map (TypeDefinition.relabel (.settling g)) := by
  refine Table.ext_map (f := TypeDefinition.relabel .unbind) ?_ fun i t u ht hu htu => ?_
  · rw [Table.map_map, Table.map_map]
    simp only [Function.comp_def, TypeDefinition.relabel_relabel]
    rfl
  · rw [Table.at?_map, Option.map_eq_some_iff] at ht hu
    obtain ⟨t, ht, rfl⟩ := ht
    obtain ⟨u, hu, rfl⟩ := hu
    obtain rfl : t = u := Option.some.inj (ht.symm.trans hu)
    refine TypeDefinition.relabel_congr rfl fun p => Option.map_congr fun r hr => ?_
    have hm : d.Mentions r := Document.mentions_iff.mpr ⟨.type i p, by
      rw [Document.ref?, ht]; exact hr⟩
    simp only [Relabeling.settling, Relabeling.binding, h r hm]

/-! ### One text or two -/

section

variable (hnew : ∀ n ∈ (parse b context).document.types.keys,
  n ∉ (parse a context).document.types.keys ∧ ∀ s ∈ (parse a context).sites, s.name ≠ n)

include hnew

/-- What the first text mentions is what it was. -/
theorem meaning?_append_of_mentions {e : Document}
    (he : e.relabel .plain = (parse b context).document.relabel .plain) {r : TypeRef}
    (hr : (parse a context).document.Mentions r) :
    reg.meaning? context ((parse a context).document.append e) r.name =
      reg.meaning? context (parse a context).document r.name := by
  have hkeys : e.types.keys = (parse b context).document.types.keys := by
    have h := congrArg (fun d : Document => d.types.keys) he
    simpa [Table.keys_map] using h
  obtain ⟨p, hp⟩ := Document.mentions_iff.mp hr
  have hnone : e.get? r.name = none := by
    rw [Document.get?, Table.get?_eq_none_iff, hkeys]
    exact fun h => (hnew r.name h).2 (.of p r) (mem_sites_iff.mpr ⟨r, hp, rfl⟩) rfl
  rw [meaning?, Document.get?_append, hnone, Option.none_or, meaning?]

/-- The types that are stored of two texts loaded as one are those of the first text and, but for
places, those that the second one stores if it is loaded afterwards. -/
theorem newTypes_append (ha : (parse a context).diagnostics = [])
    (hb : (parse b context).diagnostics = []) :
    (reg.newTypes context (a ++ "\n" ++ b)).map (TypeDefinition.relabel .plain) =
    ((reg.newTypes context a).map (TypeDefinition.relabel .plain)).append
      (((reg.setTypes context (reg.newTypes context a).entries).newTypes context b).map
        (TypeDefinition.relabel .plain)) := by
  obtain ⟨e, hparse, he⟩ := exists_parse_append ha hb
  have hfirst : (parse a context).document.types.map (TypeDefinition.relabel
      (.settling (reg.settle context ((parse a context).document.append e)))) =
      reg.newTypes context a := by
    refine settling_congr fun r hr => settle_congr (ρ := .plain) ?_
    rw [meaning?_append_of_mentions hnew he hr]
  have hbare := bare_of_plain he
  have hsecond : reg.settle context ((parse a context).document.append e) =
      (reg.setTypes context (reg.newTypes context a).entries).settle context
        (parse b context).document :=
    funext fun n => settle_congr (bare_meaning?_append reg context a n hbare).symm
  have hlast : (e.types.map (TypeDefinition.relabel (.settling
      (reg.settle context ((parse a context).document.append e))))).map
        (TypeDefinition.relabel .plain) =
      ((reg.setTypes context (reg.newTypes context a).entries).newTypes context b).map
        (TypeDefinition.relabel .plain) := by
    rw [plain_newTypes, ← hsecond, plain_settling, ← Document.types_relabel, he]
  have hboth : reg.newTypes context (a ++ "\n" ++ b) =
      ((parse a context).document.append e).types.map (TypeDefinition.relabel (.settling
        (reg.settle context ((parse a context).document.append e)))) := by
    rw [newTypes, hparse]
  rw [hboth, show ((parse a context).document.append e).types =
    (parse a context).document.types.append e.types from rfl, Table.map_append, hfirst,
    Table.map_append, hlast]

end

/-- Two texts loaded as one, if the second one declares no type that the first one declares or
refers to: nothing is wrong if nothing was wrong with them one after the other, and the registry
is then the same but for places, as are the texts that its documents are printed as. -/
theorem load_append (reg : Registry) (context a b : String)
    (ha : (reg.load a ⟨some context, .onSuccess⟩).1.isOk = true)
    (hb : ((reg.load a ⟨some context, .onSuccess⟩).2.load b
      ⟨some context, .onSuccess⟩).1.isOk = true)
    (hnew : ∀ n ∈ (parse b context).document.types.keys,
      n ∉ (parse a context).document.types.keys ∧ ∀ s ∈ (parse a context).sites, s.name ≠ n) :
    let options : LoadOptions := ⟨some context, .onSuccess⟩
    let apart := (reg.load a options).2.load b options
    let together := reg.load (a ++ "\n" ++ b) options
    together.1.isOk = true ∧ together.2.plain = apart.2.plain ∧
      ∀ c, together.2.printDocument c = apart.2.printDocument c := by
  intro options apart together
  have hfirst : (reg.load a options).2 =
      reg.setTypes context (reg.newTypes context a).entries :=
    (reg.load_registry a options).trans (if_pos ⟨rfl, ha⟩)
  obtain ⟨hcleanA, hsoundA⟩ := (reg.examine_isOk_iff context a).mp ha
  obtain ⟨hcleanB, hsoundB⟩ := (examine_isOk_iff _ context b).mp hb
  obtain ⟨e, hparse, he⟩ := exists_parse_append hcleanA hcleanB
  have hbare := bare_of_plain he
  have hok : together.1.isOk = true := by
    refine (reg.examine_isOk_iff context _).mpr ?_
    rw [hparse]
    refine ⟨rfl, .append (hsoundA.of_env fun r hr _ => ?_) ?_⟩
    · exact meaning?_append_of_mentions hnew he hr
    · rw [hfirst] at hsoundB
      exact (Document.sound_congr hbare.symm fun n =>
        bare_meaning?_append reg context a n hbare).mp hsoundB
  have hplain : together.2.plain = apart.2.plain := by
    have htogether : together.2 =
        reg.setTypes context (reg.newTypes context (a ++ "\n" ++ b)).entries :=
      (reg.load_registry _ options).trans (if_pos ⟨rfl, hok⟩)
    have hapart : apart.2 = (reg.load a options).2.setTypes context
        ((reg.load a options).2.newTypes context b).entries :=
      (load_registry _ b options).trans (if_pos ⟨rfl, hb⟩)
    have hdisjoint : ∀ k ∈ (((reg.load a options).2.newTypes context b).map
        (TypeDefinition.relabel .plain)).keys,
        k ∉ ((reg.newTypes context a).map (TypeDefinition.relabel .plain)).keys := by
      simp only [Table.keys_map, newTypes]
      exact fun k hk => (hnew k hk).1
    rw [hfirst] at hapart hdisjoint
    rw [htogether, hapart, plain_setTypes, plain_setTypes, plain_setTypes,
      newTypes_append hnew hcleanA hcleanB, Table.entries_append hdisjoint, setTypes_append]
  refine ⟨hok, hplain, fun c => ?_⟩
  rw [← printDocument_plain, hplain, printDocument_plain]

/-- An interface, and an object behind it that implements it. -/
theorem load_append_implements :
    let options : LoadOptions := ⟨some "D", .onSuccess⟩
    let a := "interface A"
    let b := "type B implements A"
    let apart := ((Registry.empty "D").load a options).2.load b options
    let together := (Registry.empty "D").load (a ++ "\n" ++ b) options
    apart.1.isOk = true ∧ together.1.isOk = true ∧ together.2.plain = apart.2.plain := by
  intro options a b apart together
  have hrun : (let first := (Registry.empty "D").load "interface A" ⟨some "D", .onSuccess⟩
      let p := parse "interface A" "D"
      (first.1.isOk, (first.2.load "type B implements A" ⟨some "D", .onSuccess⟩).1.isOk,
        p.document.types.keys, p.sites,
        (parse "type B implements A" "D").document.types.keys)) =
          (true, true, ["A"], [], ["B"]) := by decide +kernel
  obtain ⟨ha, hrun⟩ := Prod.mk.inj hrun
  obtain ⟨hb, hrun⟩ := Prod.mk.inj hrun
  obtain ⟨hkeys, hrun⟩ := Prod.mk.inj hrun
  obtain ⟨hsites, hsecond⟩ := Prod.mk.inj hrun
  obtain ⟨htogether, hplain, -⟩ := load_append (Registry.empty "D") "D" a b ha hb fun n hn => by
    rw [hsecond, List.mem_singleton] at hn
    rw [hkeys, hsites, hn]
    exact ⟨by decide, fun s hs => absurd hs List.not_mem_nil⟩
  exact ⟨hb, htogether, hplain⟩

end Registry

end SchemaLang
