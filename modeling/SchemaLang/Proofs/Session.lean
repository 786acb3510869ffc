import SchemaLang.Proofs.RoundTrip
import SchemaLang.Proofs.Settled

/-! Sessions: texts loaded one after the other into a registry that was empty, with changes of the
current document between them. Whatever is loaded, the references that are stored lead to types
of their own document. If no text declares again what is stored, each stored document is a
schema of its own: what is printed of it is loaded elsewhere without complaint, and comes out
as it was. -/

namespace SchemaLang

/-! ### Steps -/

/-- What is done with a registry in one step of a session. -/
inductive Step where
  | load (source : String) (options : LoadOptions)
  | setFallback (name : String)
  | activate (name : String)

namespace Registry

def step (reg : Registry) : Step → Registry
  | .load source options => (reg.load source options).2
  | .setFallback name => reg.setFallback name
  | .activate name => reg.activate name

def run (reg : Registry) (steps : List Step) : Registry := steps.foldl step reg

@[simp] theorem run_nil (reg : Registry) : reg.run [] = reg := rfl

@[simp] theorem run_cons (reg : Registry) (s : Step) (ss : List Step) :
    reg.run (s :: ss) = (reg.step s).run ss := rfl

/-- A step leaves the documents alone, or loads a text with nothing wrong whose types are stored in
one of them. -/
theorem step_cases (reg : Registry) (s : Step) : (reg.step s).documents = reg.documents ∨
    ∃ source options, s = .load source options ∧ options.persistence = .onSuccess ∧
      (reg.load source options).1.isOk = true ∧
      reg.step s = reg.setTypes (options.document.getD reg.current)
        (reg.newTypes (options.document.getD reg.current) source).entries := by
  cases s with
  | setFallback name => exact .inl rfl
  | activate name => exact .inl rfl
  | load source options =>
    have hload := reg.load_registry source options
    dsimp only at hload
    split at hload
    next h => exact .inr ⟨source, options, rfl, h.1, h.2, hload⟩
    next => exact .inl (congrArg documents hload)

/-- What holds of the documents of a registry, and of documents that define nothing, and is kept
when a text with nothing wrong stores its types, holds after any step. -/
theorem step_induction {P : String → Document → Prop} {reg : Registry} (s : Step)
    (hempty : ∀ c, P c (.empty c)) (h : ∀ c d, reg.document? c = some d → P c d)
    (hload : ∀ source options, s = .load source options → options.persistence = .onSuccess →
      (reg.load source options).1.isOk = true →
        P (options.document.getD reg.current)
          (reg.documentOrEmpty (options.document.getD reg.current)) →
        P (options.document.getD reg.current)
          (reg.joined (options.document.getD reg.current) source)) :
    ∀ c d, (reg.step s).document? c = some d → P c d := by
  intro c d hd
  obtain heq | ⟨source, options, hs, hp, hok, heq⟩ := reg.step_cases s
  · rw [document?, heq] at hd
    exact h c d hd
  · rw [heq] at hd
    obtain hd | ⟨rfl, rfl⟩ := eq_of_document?_setTypes hd
    · exact h c d hd
    · exact hload source options hs hp hok (documentOrEmpty_induction hempty h _)

end Registry

/-! ### References stay inside -/

/-- Is every reference of the document bound as is due in the document `context` of a registry: to
a built-in scalar if it has the name of one, and else to a type that the document has? -/
def Document.Closed (context : String) (d : Document) : Prop :=
  ∀ r, d.Mentions r →
    (isBuiltinScalar r.name = true ∧ r.binding = some .builtin) ∨
    (isBuiltinScalar r.name = false ∧ (∃ k, r.binding = some (.stored context k)) ∧
      ∃ t, d.get? r.name = some t)

namespace Registry

variable {reg : Registry} {context source : String}

theorem closed_empty (c name : String) : (Document.empty name).Closed c := by
  intro r hr
  obtain ⟨p, hp⟩ := hr.exists_ref?
  cases p <;> cases hp

/-- The types that a text stores are closed together with those that were stored. -/
theorem closed_joined (h : (reg.documentOrEmpty context).Closed context)
    (hok : (reg.examine context source).isOk = true) :
    (reg.joined context source).Closed context := by
  have hsound := ((reg.examine_isOk_iff context source).mp hok).2
  intro r hr
  obtain hr | hr := hr.of_append
  · obtain hb | ⟨hn, hb, t, ht⟩ := h r hr
    · exact .inl hb
    · refine .inr ⟨hn, hb, ?_⟩
      rw [joined, Document.get?_append, ht, ← Option.isSome_iff_exists]
      exact Option.isSome_or.trans (Bool.or_true _)
  · -- the reference is one of the text, bound to what its name means there
    change ((Document.ofTypes (parse source context).document.types).relabel
      (.settling (reg.settle context (parse source context).document))).Mentions r at hr
    obtain ⟨s, hs, rfl⟩ := Document.mentions_relabel.mp hr
    cases hn : isBuiltinScalar s.name with
    | true => exact .inl ⟨hn, by simp [Relabeling.settling, Relabeling.binding, settle, hn]⟩
    | false =>
      have hknown := hsound.known s hs.of_ofTypes
      rw [hn] at hknown
      obtain ⟨t, ht⟩ := hknown.resolve_left Bool.false_ne_true
      refine .inr ⟨hn, ⟨t.kind, ?_⟩, ?_⟩
      · simp [Relabeling.settling, Relabeling.binding, settle, hn, ht]
      · have hsome := congrArg Option.isSome (reg.relabel_get?_joined context source s.name)
        rw [Option.isSome_map, Option.isSome_map, ht] at hsome
        exact Option.isSome_iff_exists.mp hsome

theorem closed_step (s : Step) (h : ∀ c d, reg.document? c = some d → d.Closed c) :
    ∀ c d, (reg.step s).document? c = some d → d.Closed c :=
  step_induction s (fun c => closed_empty c c) h fun _ _ _ _ hok hold => closed_joined hold hok

theorem closed_run_of_closed (steps : List Step)
    (h : ∀ c d, reg.document? c = some d → d.Closed c) :
    ∀ c d, (reg.run steps).document? c = some d → d.Closed c := by
  induction steps generalizing reg with
  | nil => exact h
  | cons s ss ih => exact ih (closed_step s h)

/-- After any session, every reference in a stored document is bound to a built-in scalar exactly
if it has the name of one, and else to a type of the same document, which has a type of that
name. -/
theorem closed_run (fallback : String) (steps : List Step) (c : String) (d : Document)
    (hd : ((Registry.empty fallback).run steps).document? c = some d) : d.Closed c := by
  refine closed_run_of_closed steps (fun c d hc => ?_) c d hd
  cases hc

/-- A type that another refers to may be declared again, here as one of another kind. The reference
stays bound as it was, and there still is a type of that name. -/
theorem closed_run_redeclared :
    let steps := [.load "scalar A union B = A" {}, .load "type C { x: Int }" {}, .activate "E",
      .load "enum A" { document := some "D" }]
    ∃ d, ((Registry.empty "D").run steps).document? "D" = some d ∧
      d.refs.map (fun r => (r.2.name, r.2.binding)) =
        [("A", some (.stored "D" .scalar)), ("Int", some .builtin)] ∧
      (d.get? "A").map TypeDefinition.kind = some .enum ∧ d.Closed "D" := by
  intro steps
  have hrun : (((Registry.empty "D").run steps).document? "D").map (fun d =>
      (d.refs.map (fun r => (r.2.name, r.2.binding)), (d.get? "A").map TypeDefinition.kind)) =
        some ([("A", some (.stored "D" .scalar)), ("Int", some .builtin)], some .enum) := by
    decide +kernel
  obtain ⟨d, hd, hparts⟩ := Option.map_eq_some_iff.mp hrun
  obtain ⟨hrefs, hkind⟩ := Prod.mk.inj hparts
  exact ⟨d, hd, hrefs, hkind, closed_run "D" steps "D" d hd⟩

end Registry

/-! ### Stored documents are schemas -/

/-- A schema of its own: but for its bindings it can be written, and the names in it are those of
its own types. -/
structure Document.SelfContained (d : Document) : Prop where
  wellFormed : (d.relabel .unbind).WellFormed
  sound : d.Sound d.get?

namespace Document

variable {d : Document}

theorem SelfContained.empty (name : String) : (Document.empty name).SelfContained := by
  refine ⟨.empty name, ⟨fun r hr => ?_, nofun, nofun⟩⟩
  obtain ⟨p, hp⟩ := hr.exists_ref?
  cases p <;> cases hp

/-- What is printed of it is read without complaint, and is sound. -/
theorem SelfContained.sound_parse (h : d.SelfContained) (o : PrintOptions) (name : String) :
    (parse (d.print o) name).diagnostics = [] ∧
    (parse (d.print o) name).document.relabel .plain =
      ({ d.relabel .unbind with name } : Document).relabel (.reword (Reader.rereading o)) ∧
    (parse (d.print o) name).document.Sound (parse (d.print o) name).document.get? := by
  have hw : ({ d.relabel .unbind with name } : Document).WellFormed :=
    ⟨⟨h.wellFormed.keyed.types, h.wellFormed.keyed.directives⟩, h.wellFormed.schema,
      h.wellFormed.directives, h.wellFormed.types⟩
  have hprint : ({ d.relabel .unbind with name } : Document).print o = d.print o :=
    print_relabel rfl d o
  obtain ⟨hdiagnostics, -, hplain⟩ := hw.reads_back o
  rw [hprint, plain_eq_relabel, reword_eq_relabel] at hplain
  rw [hprint] at hdiagnostics
  refine ⟨hdiagnostics, hplain, ?_⟩
  have hsound : (d.relabel .unbind).Sound (d.relabel .unbind).get? :=
    sound_get?_relabel_iff.mpr h.sound
  rw [← sound_get?_relabel_iff (ρ := .plain), hplain, sound_get?_relabel_iff]
  exact hsound.rename name

/-- What is printed of it is loaded into an empty registry without complaint, and if the
descriptions keep their lines it comes out as it was. -/
theorem SelfContained.reload (h : d.SelfContained) (o : PrintOptions) (fallback : String)
    (options : LoadOptions) :
    let out := ((Registry.empty fallback).load (d.print o) options).1
    out.diagnostics = [] ∧ out.aborted = false ∧
      ((∀ s ∈ d.descriptions, '\n' ∈ s.toList → Block.Safe s.toList) →
        (out.document == d) = true) := by
  dsimp only [Registry.load]
  generalize options.document.getD (Registry.empty fallback).current = context
  obtain ⟨hclean, hplain, hsound⟩ := h.sound_parse o context
  have hok : ((Registry.empty fallback).examine context (d.print o)).isOk = true := by
    refine (Registry.examine_isOk_iff _ _ _).mpr ⟨hclean, ?_⟩
    have hmeaning : (Registry.empty fallback).meaning? context
        (parse (d.print o) context).document = (parse (d.print o) context).document.get? :=
      funext fun n => Option.or_none
    rwa [hmeaning]
  have hnil := List.isEmpty_iff.mp hok
  have hab : ((Registry.empty fallback).examine context (d.print o)).aborted = false :=
    (Bool.not_eq_true _).mp fun hab => Registry.diagnostics_ne_nil_of_aborted _ _ _ hab hnil
  refine ⟨hnil, hab, fun hsafe => ?_⟩
  have hpab : (parse (d.print o) context).aborted = false :=
    (Bool.not_eq_true _).mp fun hab => Parsed.diagnostics_ne_nil_of_aborted hab hclean
  have hkept : ({ d.relabel .unbind with name := context } : Document).reword
        (Reader.rereading o) =
      ({ d.relabel .unbind with name := context } : Document).reword .none := by
    refine reword_congr fun s hs => ?_
    replace hs : s ∈ d.descriptions := by rwa [← d.descriptions_relabel (ρ := .unbind) rfl]
    exact ⟨reread_of_safe Block.isIndent_nil (hsafe s hs),
      reread_of_safe o.isIndent_indent (hsafe s hs)⟩
  have hbare : ((Registry.empty fallback).examine context (d.print o)).document.relabel .bare =
      ({ d with name := context } : Document).relabel .bare := by
    rw [Registry.document_examine hpab, Registry.relabel_resolve _ _ _ _ fun _ _ => rfl]
    calc (parse (d.print o) context).document.relabel .bare
      _ = ((parse (d.print o) context).document.relabel .plain).relabel .unbind := by
        rw [relabel_relabel]
        rfl
      _ = (({ d.relabel .unbind with name := context } : Document).relabel .plain).relabel
          .unbind := by
        rw [hplain, ← reword_eq_relabel, hkept, reword_eq_relabel]
        rfl
      _ = ((({ d with name := context } : Document).relabel .unbind).relabel .plain).relabel
          .unbind := rfl
      _ = ({ d with name := context } : Document).relabel .bare := by
        rw [relabel_relabel, relabel_relabel]
        rfl
  have hbeq := beq_of_bare hbare
  exact hbeq

end Document

/-! ### Sessions that only add -/

/-- Does the step store no type under a name that its context document has already? -/
def Step.AddsOnly (reg : Registry) : Step → Prop
  | .load source options =>
    options.persistence = .onSuccess ∧ (reg.load source options).1.isOk = true →
      ∀ n ∈ (reg.load source options).1.document.types.keys,
        n ∉ (reg.documentOrEmpty (options.document.getD reg.current)).types.keys
  | .setFallback _ | .activate _ => True

namespace Registry

variable {reg : Registry} {context source : String}

/-- Does no step of a session store a type under a name that its context document has then? -/
def AddsOnly (reg : Registry) : List Step → Prop
  | [] => True
  | s :: ss => s.AddsOnly reg ∧ (reg.step s).AddsOnly ss

theorem selfContained_joined (h : (reg.documentOrEmpty context).SelfContained)
    (hok : (reg.examine context source).isOk = true)
    (hnew : ∀ n ∈ (parse source context).document.types.keys,
      n ∉ (reg.documentOrEmpty context).types.keys) :
    (reg.joined context source).SelfContained where
  wellFormed := by
    have hw := wellFormed_parse source context
    have htypes : (Document.ofTypes (reg.newTypes context source)).relabel .unbind =
        .ofTypes (parse source context).document.types :=
      congrArg Document.ofTypes ((reg.relabel_newTypes context source).trans hw.types_unbind)
    rw [joined, Document.relabel_append, htypes]
    have hempty := Document.WellFormed.empty context
    exact h.wellFormed.append
      ⟨⟨hw.keyed.types, .empty⟩, hempty.schema, hempty.directives, hw.types⟩
  sound := by
    have hsound := ((reg.examine_isOk_iff context source).mp hok).2
    refine .append (h.sound.of_env fun r hr hn => ?_) ?_
    · -- what is stored keeps its meaning, since no name of it is declared again
      have hknown := h.sound.known r hr
      rw [hn] at hknown
      have hold : r.name ∈ (reg.documentOrEmpty context).types.keys :=
        Table.mem_keys_iff.mpr (hknown.resolve_left Bool.false_ne_true)
      have hnone : (reg.newTypes context source).get? r.name = none := by
        rw [Table.get?_eq_none_iff, newTypes, Table.keys_map]
        exact fun hmem => hnew _ hmem hold
      rw [joined, Document.get?_append]
      exact congrArg (Option.or · _) hnone
    · have hsame : (Document.ofTypes (reg.newTypes context source)).relabel .unbind =
          (Document.ofTypes (parse source context).document.types).relabel .unbind :=
        congrArg Document.ofTypes (reg.relabel_newTypes context source)
      exact (Document.sound_congr hsame (reg.relabel_get?_joined context source)).mpr hsound.ofTypes

theorem selfContained_step (s : Step) (h : ∀ c d, reg.document? c = some d → d.SelfContained)
    (hadds : s.AddsOnly reg) :
    ∀ c d, (reg.step s).document? c = some d → d.SelfContained := by
  refine step_induction s Document.SelfContained.empty h ?_
  rintro source options rfl hp hok hold
  refine selfContained_joined hold hok fun n hn => hadds ⟨hp, hok⟩ n ?_
  exact (reg.keys_examine _ source).symm ▸ hn

theorem selfContained_run {steps : List Step} (hadds : reg.AddsOnly steps)
    (h : ∀ c d, reg.document? c = some d → d.SelfContained) :
    ∀ c d, (reg.run steps).document? c = some d → d.SelfContained := by
  induction steps generalizing reg with
  | nil => exact h
  | cons s ss ih => exact ih hadds.2 (selfContained_step s h hadds.1)

/-- In a session that declares no name again, every stored document is a schema of its own: what is
printed of it is loaded into an empty registry without complaint, and the document that comes
out is the stored one if its descriptions keep their lines. -/
theorem run_reload (fallback : String) (steps : List Step)
    (hadds : (Registry.empty fallback).AddsOnly steps) (c : String) (d : Document)
    (hd : ((Registry.empty fallback).run steps).document? c = some d) :
    ∃ text, ((Registry.empty fallback).run steps).printDocument c = some text ∧
      ∀ (fallback' : String) (options : LoadOptions),
        let out := ((Registry.empty fallback').load text options).1
        out.diagnostics = [] ∧ out.aborted = false ∧
          ((∀ s ∈ d.descriptions, '\n' ∈ s.toList → Block.Safe s.toList) →
            (out.document == d) = true) := by
  have hself : d.SelfContained := by
    refine selfContained_run hadds (fun c d hc => ?_) c d hd
    cases hc
  refine ⟨d.print {}, by rw [printDocument, hd]; rfl, fun fallback' options => ?_⟩
  exact hself.reload {} fallback' options

/-- Two texts, the second one of which refers to the first, and a description of two lines. -/
theorem run_reload_two :
    let steps := [.load "\"\"\"a\nb\"\"\" scalar A" {},
      .load "union B = A" { document := some "D" }]
    (Registry.empty "D").AddsOnly steps ∧ ∃ d,
      ((Registry.empty "D").run steps).document? "D" = some d ∧
      (∀ s ∈ d.descriptions, '\n' ∈ s.toList → Block.Safe s.toList) ∧
      ∃ text, ((Registry.empty "D").run steps).printDocument "D" = some text ∧
        ((Registry.empty "E").load text {}).1.diagnostics = [] ∧
        (((Registry.empty "E").load text {}).1.document == d) = true := by
  intro steps
  have hrun : (let first := (Registry.empty "D").step (.load "\"\"\"a\nb\"\"\" scalar A" {})
      let out := first.load "union B = A" { document := some "D" }
      (out.1.document.types.keys, (first.documentOrEmpty "D").types.keys,
        (out.2.document? "D").map Document.descriptions)) =
          (["B"], ["A"], some ["a\nb"]) := by decide +kernel
  obtain ⟨hnew, hrun⟩ := Prod.mk.inj hrun
  obtain ⟨hold, hdescriptions⟩ := Prod.mk.inj hrun
  have hadds : (Registry.empty "D").AddsOnly steps := by
    refine ⟨fun _ n _ => List.not_mem_nil, fun _ n hn => ?_, trivial⟩
    rw [hnew, List.mem_singleton] at hn
    subst hn
    exact hold ▸ (by decide : "B" ∉ ["A"])
  obtain ⟨d, hd, hds⟩ := Option.map_eq_some_iff.mp hdescriptions
  have hsafe : ∀ s ∈ d.descriptions, '\n' ∈ s.toList → Block.Safe s.toList := by
    rw [hds]
    rintro s hs -
    obtain rfl := List.mem_singleton.mp hs
    exact ⟨by decide, by decide, by decide, ['a'], by decide, by decide, by simp⟩
  obtain ⟨text, htext, h⟩ := run_reload "D" steps hadds "D" d hd
  exact ⟨hadds, d, hd, hsafe, text, htext, (h "E" {}).1, (h "E" {}).2.2 hsafe⟩

end Registry

end SchemaLang
