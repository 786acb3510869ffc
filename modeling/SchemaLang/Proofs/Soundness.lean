import SchemaLang.Proofs.Document.Append
import SchemaLang.Proofs.Document.Unbound
import SchemaLang.Proofs.Verdict

/-! Sound documents. What is asked of a document can be told of the document as it was read,
once it is known which type each name stands for; places and bindings do not matter, and
sound documents put one behind the other are sound. Nothing is wrong with a text exactly if it
is read without complaint into a sound document. -/

namespace SchemaLang

namespace Document

/-- Every name is that of a type, interfaces are interfaces, and objects have the fields of their
interfaces, where `env` tells the type that a name stands for. -/
structure Sound (env : String → Option TypeDefinition) (d : Document) : Prop where
  known : ∀ r, d.Mentions r → isBuiltinScalar r.name = true ∨ ∃ t, env r.name = some t
  interfaces : ∀ t ∈ d.types.values, ∀ r ∈ t.interfaces,
    isBuiltinScalar r.name = false ∧ ∃ u, env r.name = some u ∧ u.kind = .interface
  provides : ∀ t ∈ d.types.values, ∀ b, t.body = .object b → ∀ r ∈ b.interfaces,
    ∀ i, env r.name = some i → ∀ required, i.fields? = some required →
      ∀ f ∈ required.values, ∃ g, b.fields.get? f.name.value = some g ∧
        g.type.name = f.type.name ∧ g.type.wrappers = f.type.wrappers

variable {d e : Document} {env env' : String → Option TypeDefinition}

theorem sound_iff : d.Sound env ↔
    (∀ r, d.Mentions r → isBuiltinScalar r.name = true ∨ ∃ t, env r.name = some t) ∧
    (∀ t ∈ d.types.values, ∀ r ∈ t.interfaces,
      isBuiltinScalar r.name = false ∧ ∃ u, env r.name = some u ∧ u.kind = .interface) ∧
    ∀ t ∈ d.types.values, ∀ b, t.body = .object b → ∀ r ∈ b.interfaces,
      ∀ i, env r.name = some i → ∀ required, i.fields? = some required →
        ∀ f ∈ required.values, ∃ g, b.fields.get? f.name.value = some g ∧
          g.type.name = f.type.name ∧ g.type.wrappers = f.type.wrappers :=
  ⟨fun h => ⟨h.known, h.interfaces, h.provides⟩, fun ⟨hk, hi, hp⟩ => ⟨hk, hi, hp⟩⟩

/-! ### Labels -/

/-- Labels make no difference, neither those of the document nor those of the types that its names
stand for. -/
theorem sound_relabel_iff {ρ σ : Relabeling} :
    (d.relabel ρ).Sound (fun n => (env n).map (TypeDefinition.relabel σ)) ↔ d.Sound env := by
  rw [sound_iff, sound_iff]
  refine and_congr ?_ (and_congr ?_ ?_)
  · simp [mentions_relabel]
  · simp
  · simp [TypeBody.relabel_eq_object_iff, FieldSet.relabel, Table.get?_map]

/-- Whether a document is sound depends on what it says without its labels, and on what the types
that its names stand for say without theirs. -/
theorem sound_congr {ρ σ : Relabeling} (hd : d.relabel ρ = e.relabel ρ)
    (henv : ∀ n, (env n).map (TypeDefinition.relabel σ) = (env' n).map (TypeDefinition.relabel σ)) :
    d.Sound env ↔ e.Sound env' := by
  rw [← sound_relabel_iff (ρ := ρ) (σ := σ), hd, funext henv, sound_relabel_iff]

theorem sound_get?_relabel_iff {ρ : Relabeling} :
    (d.relabel ρ).Sound (d.relabel ρ).get? ↔ d.Sound d.get? := by
  rw [funext d.get?_relabel, sound_relabel_iff]

/-- Nor does the name of the document count. -/
theorem Sound.rename (h : d.Sound env) (name : String) :
    ({ d with name } : Document).Sound env := by
  have href : ∀ p, ({ d with name } : Document).ref? p = d.ref? p := fun p => by cases p <;> rfl
  refine ⟨fun r hr => h.known r ?_, h.interfaces, h.provides⟩
  obtain ⟨p, hp⟩ := hr.exists_ref?
  exact mentions_iff.mpr ⟨p, (href p).symm.trans hp⟩

/-! ### Other names, and more of them -/

/-- Only the types of names that are mentioned count, and not those of built-in scalars. -/
theorem Sound.of_env (h : d.Sound env)
    (henv : ∀ r, d.Mentions r → isBuiltinScalar r.name = false → env' r.name = env r.name) :
    d.Sound env' := by
  have hinterface : ∀ t ∈ d.types.values, ∀ r ∈ t.interfaces, env' r.name = env r.name := by
    intro t ht r hr
    obtain ⟨p, -, hp⟩ := mem_interfaces_iff.mp ⟨t, ht, hr⟩
    exact henv r (mentions_iff.mpr ⟨p, hp⟩) (h.interfaces t ht r hr).1
  refine ⟨fun r hr => ?_, fun t ht r hr => ?_, fun t ht b hb r hr i hi => ?_⟩
  · cases hn : isBuiltinScalar r.name with
    | true => exact .inl rfl
    | false =>
      rw [henv r hr hn, ← hn]
      exact h.known r hr
  · rw [hinterface t ht r hr]
    exact h.interfaces t ht r hr
  · have hri : r ∈ t.interfaces := by
      simpa [TypeDefinition.interfaces, TypeBody.fieldSet?, hb] using hr
    rw [hinterface t ht r hri] at hi
    exact h.provides t ht b hb r hr i hi

theorem Mentions.of_ofTypes {r : TypeRef} (h : (ofTypes d.types).Mentions r) : d.Mentions r := by
  cases h with
  | implemented ht hb hr => exact .implemented ht hb hr
  | field ht hb hf => exact .field ht hb hf
  | argument ht hb hf ha => exact .argument ht hb hf ha
  | member ht hb hr => exact .member ht hb hr
  | inputField ht hb hv => exact .inputField ht hb hv
  | directiveArgument hv => exact nomatch hv
  | rootOperation hs => exact nomatch hs

theorem Sound.ofTypes (h : d.Sound env) : (ofTypes d.types).Sound env :=
  ⟨fun r hr => h.known r hr.of_ofTypes, h.interfaces, h.provides⟩

theorem Sound.append (hd : d.Sound env) (he : e.Sound env) : (d.append e).Sound env where
  known := fun r hr => hr.of_append.elim (hd.known r) (he.known r)
  interfaces := fun t ht => (Table.mem_values_append ht).elim (hd.interfaces t) (he.interfaces t)
  provides := fun t ht => (Table.mem_values_append ht).elim (hd.provides t) (he.provides t)

end Document

/-! ### The verdict -/

namespace Registry

variable {reg : Registry} {context : String} {d e : Document}

theorem knows_iff {n : String} : reg.Knows context d n ↔
    isBuiltinScalar n = true ∨ ∃ t, reg.meaning? context d n = some t := by
  unfold Knows meaning?
  cases d.get? n <;> simp

theorem relabel_meaning? (ρ : Relabeling) (n : String) :
    (reg.meaning? context d n).map (TypeDefinition.relabel ρ) =
      ((d.relabel ρ).get? n).or ((reg.type? context n).map (TypeDefinition.relabel ρ)) := by
  rw [meaning?, Document.get?_relabel]
  cases d.get? n <;> rfl

theorem meaning?_congr {ρ : Relabeling} (h : d.relabel ρ = e.relabel ρ) (n : String) :
    (reg.meaning? context d n).map (TypeDefinition.relabel ρ) =
      (reg.meaning? context e n).map (TypeDefinition.relabel ρ) := by
  rw [relabel_meaning?, h, relabel_meaning?]

/-- Resolving gives bindings and changes nothing else. -/
theorem relabel_resolve (reg : Registry) (context : String) (d : Document) (ss : List RefSite)
    {ρ : Relabeling} (hρ : ∀ r b, ρ.ref { r with binding := b } = ρ.ref r) :
    (reg.resolve context d ss).document.relabel ρ = d.relabel ρ :=
  foldl_bindSite_induction (P := fun e => e.relabel ρ = d.relabel ρ) d ss
    (fun e p b he => (Document.relabel_modifyRef (hρ · b) e p).trans he) rfl

/-- Nothing is reported of a text exactly if nothing is reported when it is read, and the document
is sound. -/
theorem examine_isOk_iff (reg : Registry) (context source : String) :
    (reg.examine context source).isOk = true ↔ (parse source context).diagnostics = [] ∧
      (parse source context).document.Sound
        (reg.meaning? context (parse source context).document) := by
  have habort : (parse source context).aborted = true → (parse source context).diagnostics ≠ [] :=
    Parsed.diagnostics_ne_nil_of_aborted
  unfold examine
  dsimp only
  split
  next ha => exact iff_of_false (by simpa [Loaded.isOk] using habort ha) fun h => habort ha h.1
  next =>
    rw [Parsed.sites]
    generalize (parse source context).document = d
    generalize he : (reg.resolve context d d.sites).document = e
    simp only [Loaded.isOk, List.isEmpty_iff, List.append_eq_nil_iff]
    have hsame : e.relabel .unbind = d.relabel .unbind :=
      he ▸ reg.relabel_resolve context d d.sites fun _ _ => rfl
    rw [and_assoc, ← Document.sound_congr hsame (meaning?_congr hsame)]
    refine and_congr_right fun _ => ?_
    have hchecked : (reg.resolve context d d.sites).diagnostics = [] →
        reg.checkResolved (reg.resolve context d d.sites) = reg.check e [] := by
      intro hnil
      have hf := (failed_eq_nil_iff _).mpr hnil
      simp [checkResolved, Resolution.interfaceFailed, Resolution.slotsWithUnresolvedFields, hf, he]
    constructor
    · rintro ⟨hnil, hcheck⟩
      obtain ⟨hknown, hinterfaces⟩ := (diagnostics_resolve_iff he).mp hnil
      rw [hchecked hnil, check_resolve_iff he hnil] at hcheck
      refine ⟨fun r hr => knows_iff.mp (hknown r hr), hinterfaces, ?_⟩
      exact fun t ht b hb r hr i hi required hf => hcheck t ht b hb r hr i required hi hf
    · rintro ⟨hknown, hinterfaces, hprovides⟩
      have hnil := (diagnostics_resolve_iff he).mpr
        ⟨fun r hr => knows_iff.mpr (hknown r hr), hinterfaces⟩
      rw [hchecked hnil, check_resolve_iff he hnil]
      refine ⟨hnil, ?_⟩
      exact fun t ht b hb r hr i required hi hf => hprovides t ht b hb r hr i hi required hf

end Registry

end SchemaLang
