import SchemaLang.Proofs.Reader.Anchors
import SchemaLang.Proofs.Settled
import SchemaLang.Proofs.Text.Places

/-! Where diagnostics stand. Every diagnostic of a text, whichever phase it comes from, stands at
one of the tokens of the text and thus marks a piece of it; and if it is about a name, that name is
the piece. Reading shows this of what it finds and of the names in the document that it makes, and
resolving and checking only report at the places of such names. -/

namespace SchemaLang

/-! ### What a diagnostic is about -/

/-- The token `t` behind the tokens `before` is what the cause is about. A missing field is told of
the object in the document `d` that lacks it. -/
def Cause.Concerns (d : Document) (before : List Token) (t : Token) : Cause → Prop
  | malformed _ | notAStatement _ => True
  | duplicateField name | undefinedType name _ | notAnInterface name =>
    t.kind.isName = true ∧ t.text = name
  | duplicateInterface => t.kind.isName = true ∧ NamesInterface before t.text
  | missingFields type _ _ => t.kind.isName = true ∧ t.text = type ∧
      ∃ o, d.get? type = some o ∧ o.kind = .object ∧ o.name = ⟨type, t.location⟩
  | other _ _ _ => False

/-- The diagnostic stands at one of the tokens, and is about it. -/
def Diagnostic.StandsIn (tokens : List Token) (d : Document) (e : Diagnostic) : Prop :=
  ∃ before t after, tokens = before ++ t :: after ∧ e.location = t.location ∧
    e.cause.Concerns d before t

variable {words : List Token} {d : Document}

theorem Diagnostic.standsIn_of_form {tokens : List Token} {cause : Cause} {l : Location}
    (h : ∃ t ∈ tokens, l = t.location) (hc : ∀ before t, cause.Concerns d before t) :
    StandsIn tokens d ⟨cause, l⟩ := by
  obtain ⟨t, ht, rfl⟩ := h
  obtain ⟨before, after, rfl⟩ := List.append_of_mem ht
  exact ⟨before, t, after, rfl, rfl, hc before t⟩

/-- A diagnostic about a name stands at its word. -/
theorem Anchored.standsIn {name : String} {l : Location} (h : Anchored words name l) {cause : Cause}
    (hc : ∀ before t, t.kind.isName = true → t.text = name → t.location = l →
      cause.Concerns d before t) (stop : Token) :
    Diagnostic.StandsIn (words ++ [stop]) d ⟨cause, l⟩ := by
  obtain ⟨t, ht, hk, hname, rfl⟩ := h
  obtain ⟨before, after, rfl⟩ := List.append_of_mem ht
  refine ⟨before, t, after ++ [stop], ?_, rfl, hc before t hk hname rfl⟩
  rw [List.append_assoc, List.cons_append]

theorem Repetition.standsIn {e : Diagnostic} (h : Repetition words e) (stop : Token) :
    e.StandsIn (words ++ [stop]) d := by
  cases h with
  | field h =>
    apply h.standsIn
    exact fun _ _ hk hname _ => ⟨hk, hname⟩
  | @interface before after t hwords ht h =>
    refine ⟨before, t, after ++ [stop], ?_, rfl, ht, h⟩
    rw [hwords, List.append_assoc, List.cons_append]

/-! ### Reading -/

theorem exists_nextLocation (stop : Token) {ts : List Token} (hts : ts <:+ words) :
    ∃ t ∈ words ++ [stop], nextLocation stop ts = t.location := by
  cases ts with
  | nil => exact ⟨stop, List.mem_append_right words (List.mem_singleton_self stop), rfl⟩
  | cons t ts => exact ⟨t, List.mem_append_left [stop] (hts.subset List.mem_cons_self), rfl⟩

/-- The definitions in a round of reading keep the places of their names, and what is found stands
at one of the tokens. -/
structure Item.Stands (words : List Token) (stop : Token) (d : Document) (i : Item) : Prop where
  definition : ∀ v ∈ i.definition?, v.Anchored words
  found : ∀ e ∈ i.found, e.StandsIn (words ++ [stop]) d

theorem stands_items (stop : Token) (d : Document) {ts : List Token} (hts : ts <:+ words) :
    ∀ i ∈ items stop ts, i.Stands words stop d := by
  induction ts using items_induction with
  | nil => simp [items_nil]
  | ended ts hne hd =>
    rw [items_of_end hne hd]
    refine List.forall_mem_singleton.mpr ⟨nofun, List.forall_mem_singleton.mpr ?_⟩
    exact Diagnostic.standsIn_of_form (exists_nextLocation stop List.nil_suffix)
      fun _ _ => True.intro
  | other ts t rest hd hk =>
    have hsuffix : t :: rest <:+ words := hd ▸ (splitDescription_suffix ts).trans hts
    rw [items_of_other hd hk]
    refine List.forall_mem_singleton.mpr ⟨nofun, List.forall_mem_singleton.mpr ?_⟩
    exact Diagnostic.standsIn_of_form (exists_nextLocation stop hsuffix) fun _ _ => True.intro
  | done ts t rest k v ds rest' hd hk hrun ih =>
    have hrest := (rest_suffix hd).trans hts
    have hread := Reader.anchors_definition (splitDescription ts).1 k rest hrest
    rw [hrun] at hread
    rw [items_of_done hd hk hrun]
    refine List.forall_mem_cons.mpr ⟨⟨?_, ?_⟩, ih ((suffix_of_done hrun).trans hrest)⟩
    · rintro _ ⟨⟩
      exact hread.made v ds rest' rfl
    · exact fun e he => (hread.found e he).standsIn stop
  | stuck ts t rest k fault ds rest' hd hk hrun ih =>
    have hrest := (rest_suffix hd).trans hts
    have hread := Reader.anchors_definition (splitDescription ts).1 k rest hrest
    have hleft := (Reader.definition (splitDescription ts).1 k).rest_run_suffix rest
    rw [hrun] at hread hleft
    rw [items_of_stuck hd hk hrun]
    refine List.forall_mem_cons.mpr ⟨⟨nofun, fun e he => ?_⟩,
      ih ((resume_suffix_of_stuck hrun).trans hrest)⟩
    rcases List.mem_append.mp he with he | he
    · exact (hread.found e he).standsIn stop
    · obtain rfl := List.mem_singleton.mp he
      exact Diagnostic.standsIn_of_form (exists_nextLocation stop (hleft.trans hrest))
        fun _ _ => True.intro

theorem anchored_parse (source name : String) :
    (parse source name).document.Anchored (Tokens.ofString source).words := by
  refine (Document.Anchored.empty name).foldl_define fun v hv => ?_
  obtain ⟨i, hi, hv⟩ := List.mem_filterMap.mp hv
  exact (stands_items _ (.empty name) (List.suffix_refl _) i hi).definition v hv

theorem standsIn_parse (source name : String) (d : Document) :
    ∀ e ∈ (parse source name).diagnostics, e.StandsIn (Tokens.ofString source).toList d := by
  intro e he
  obtain ⟨i, hi, he⟩ := List.mem_flatMap.mp he
  exact (stands_items _ d (List.suffix_refl _) i hi).found e he

/-! ### Resolving and checking -/

namespace Registry

variable {reg : Registry} {context : String}

/-- What resolving finds stands at the name that it is about. -/
theorem standsIn_resolve {p : Document} (hp : p.Anchored words) (stop : Token) :
    ∀ e ∈ (reg.resolve context p p.sites).diagnostics, e.StandsIn (words ++ [stop]) d := by
  intro e he
  obtain ⟨s, hs, he⟩ := List.mem_filterMap.mp he
  obtain ⟨r, hr, heq⟩ := mem_sites_iff.mp hs
  have hanchored : Anchored words s.name s.location := by
    rw [heq]
    exact hp.of_mentions (Document.mentions_iff.mpr ⟨s.path, hr⟩)
  unfold bindingFor at he
  cases hl : reg.lookup context p s.name with
  | none =>
    obtain rfl : _ = e := by simpa [hl] using he
    apply hanchored.standsIn
    exact fun _ _ hk hname _ => ⟨hk, hname⟩
  | some b =>
    by_cases hb : s.path.isInterface = true ∧ b.kind ≠ .interface
    · obtain rfl : _ = e := by simpa [hl, hb] using he
      apply hanchored.standsIn
      exact fun _ _ hk hname _ => ⟨hk, hname⟩
    · simp [hl, hb] at he

/-- What checking finds is told of an object, at its name. -/
theorem exists_of_mem_check {skip : List Nat} {e : Diagnostic} (he : e ∈ reg.check d skip) :
    ∃ t ∈ d.types.values, t.kind = .object ∧ ∃ interface missing,
      e = ⟨.missingFields t.name.value interface missing, t.name.location⟩ := by
  obtain ⟨⟨t, i⟩, ht, he⟩ := List.mem_flatMap.mp he
  refine ⟨t, (List.mem_zipIdx' ht).2 ▸ List.getElem_mem _, ?_⟩
  dsimp only at he
  split at he
  next => cases he
  next =>
    unfold checkType at he
    split at he
    next b hb =>
      refine ⟨by rw [TypeDefinition.kind, hb]; rfl, ?_⟩
      obtain ⟨r, hr, he⟩ := List.mem_filterMap.mp he
      obtain ⟨o, ho, he⟩ := Option.bind_eq_some_iff.mp he
      obtain ⟨required, hrequired, he⟩ := Option.bind_eq_some_iff.mp he
      dsimp only at he
      split at he
      next => cases he
      next => exact ⟨_, _, (Option.some.inj he).symm⟩
    all_goals cases he

theorem standsIn_check {p : Document} (hkeyed : p.Keyed) (hp : p.Anchored words) (stop : Token)
    (skip : List Nat) :
    let resolved := (reg.resolve context p p.sites).document
    ∀ e ∈ reg.check resolved skip, e.StandsIn (words ++ [stop]) resolved := by
  intro resolved e he
  obtain ⟨t, ht, hkind, interface, missing, rfl⟩ := exists_of_mem_check he
  have hget : resolved.get? t.name.value = some t := by
    obtain ⟨k, hk⟩ := Table.mem_values_iff_get?.mp ht
    have hname : t.name.value = k :=
      (keyed_resolve hkeyed p.sites).types _ (Table.get?_eq_some_iff.mp hk)
    rw [hname]
    exact hk
  -- resolving leaves the names of the types where they were
  have hanchored : t.name.Anchored words := by
    have hrelabel : resolved.relabel .unbind = p.relabel .unbind :=
      relabel_resolve reg context p p.sites fun _ _ => rfl
    have hmem := List.mem_map_of_mem (f := TypeDefinition.relabel .unbind) ht
    rw [← Table.values_map, ← Document.types_relabel, hrelabel, Document.types_relabel,
      Table.values_map] at hmem
    obtain ⟨u, hu, heq⟩ := List.mem_map.mp hmem
    have hname := congrArg TypeDefinition.name heq
    change u.name = t.name at hname
    exact hname ▸ (hp.types u hu).name
  apply hanchored.standsIn
  intro before u hk hname hl
  exact ⟨hk, hname, t, hget, hkind, hl ▸ rfl⟩

/-- Whichever phase a diagnostic comes from, it stands at one of the tokens of the text. -/
theorem standsIn_examine (reg : Registry) (context source : String) :
    let out := reg.examine context source
    ∀ e ∈ out.diagnostics, e.StandsIn (Tokens.ofString source).toList out.document := by
  have hread := standsIn_parse source context
  have hanchored := anchored_parse source context
  unfold examine
  dsimp only
  split
  next => exact hread _
  next =>
    intro e he
    rw [List.mem_append, List.mem_append] at he
    rcases he with (he | he) | he
    · exact hread _ e he
    · exact standsIn_resolve hanchored _ e he
    · unfold checkResolved at he
      split at he
      next => cases he
      next => exact standsIn_check (keyed_parse source context) hanchored _ _ e he

/-- Every diagnostic of a text stands at one of its tokens and is about it. What it marks is the
piece of the text that the token is, so it begins and ends between characters of the text. -/
theorem load_located (reg : Registry) (source : String) (options : LoadOptions) :
    let out := (reg.load source options).1
    ∀ e ∈ out.diagnostics, ∃ before t after, ∃ front back : String,
      (Tokens.ofString source).toList = before ++ t :: after ∧ e.location = t.location ∧
      e.cause.Concerns out.document before t ∧
      source = front ++ t.text ++ back ∧
      e.location.span = ⟨front.utf8ByteSize, (front ++ t.text).utf8ByteSize⟩ ∧
      e.location.span.start ≤ e.location.span.stop ∧
      e.location.span.stop ≤ source.utf8ByteSize ∧
      (source.utf8ByteSize < 2 ^ 31 → e.location.span.length = t.text.utf8ByteSize) ∧
      e.report.span = e.location.span := by
  intro out e he
  obtain ⟨before, t, after, htokens, hlocation, hconcerns⟩ := standsIn_examine reg _ source e he
  have ht : t ∈ (Tokens.ofString source).toList :=
    htokens ▸ List.mem_append_right before List.mem_cons_self
  obtain ⟨front, back, hsource, hspan⟩ := Tokens.exists_of_mem_ofString ht
  have hbytes : source.utf8ByteSize =
      front.utf8ByteSize + t.text.utf8ByteSize + back.utf8ByteSize := by
    rw [hsource, String.utf8ByteSize_append, String.utf8ByteSize_append]
  refine ⟨before, t, after, front, back, htokens, hlocation, hconcerns, hsource,
    hlocation ▸ hspan, ?_, ?_, fun hlt => ?_, rfl⟩
  all_goals rw [hlocation, hspan, String.utf8ByteSize_append]
  · exact Nat.le_add_right _ _
  · dsimp only
    omega
  · rw [Span.length_eq_sub (Nat.le_add_right _ _), Nat.add_sub_cancel_left]
    rw [Span.wordCount]
    dsimp only
    omega

/-- The name of a type that is nowhere to be found. -/
theorem load_located_undefined :
    let source := "union U=T"
    let out := ((Registry.empty "D").load source {}).1
    let e : Diagnostic := ⟨.undefinedType "T" "D", ⟨⟨1, 9⟩, ⟨8, 9⟩⟩⟩
    e ∈ out.diagnostics ∧ ∃ before t after, ∃ front back : String,
      (Tokens.ofString source).toList = before ++ t :: after ∧ e.location = t.location ∧
      t.text = "T" ∧ source = front ++ "T" ++ back ∧ front.utf8ByteSize = 8 ∧
      e.location.span.length = 1 := by
  intro source out e
  have hout : ((Registry.empty "D").load "union U=T" {}).1.diagnostics = [e] := by decide +kernel
  have he : e ∈ out.diagnostics := hout ▸ List.mem_singleton_self e
  obtain ⟨before, t, after, front, back, htokens, hlocation, ⟨-, ht⟩, hsource, hspan, -, -,
    hlength, -⟩ := load_located (Registry.empty "D") source {} e he
  refine ⟨he, before, t, after, front, back, htokens, hlocation, ht, ht ▸ hsource, ?_, ?_⟩
  · exact (congrArg Span.start hspan).symm
  · rw [hlength (by decide), ht]
    decide

end Registry

end SchemaLang
