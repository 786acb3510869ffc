import Mathlib.Data.List.ReduceOption
import SchemaLang.Proofs.Occurrences
import SchemaLang.Proofs.Reader.Cuts

/-! The names of types that a text leaves in its document. Each pass of the loop reads a statement,
which has the names of a tree, or none. From pass to pass the document is what comes of the
statements read so far, and their names stand in front of what is left. So the sites of references
in the document are the names of types in the statements that were read, in the order of the text:
each that counts once, and no others. -/

namespace SchemaLang

open scoped Computability

namespace Progress

/-- What a pass reads: a statement with the names of a tree, or none. -/
def Reads (s : Progress) : Option Written → Prop
  | some w => ∃ v found rest, s.statement? = some (.done v found rest) ∧
      ∃ used ∈ w.words, used ++ rest = s.rest
  | none => ∀ v found rest, s.statement? ≠ some (.done v found rest)

variable {s : Progress}

theorem exists_reads (s : Progress) : ∃ w, s.Reads w := by
  by_cases h : ∃ v found rest, s.statement? = some (.done v found rest)
  · obtain ⟨v, found, rest, h⟩ := h
    obtain ⟨t, rest', k, hsplit, hk, hrun⟩ := exists_of_statement? h
    obtain ⟨⟨u, hu, rfl⟩, -⟩ := sound_of_done hrun
    obtain ⟨w, rfl, hw⟩ := Written.exists_wordsAfter hu
    obtain ⟨⟨d, hd, hrest⟩, -⟩ := Reader.recognizes_description.sound (Nat.lt_succ_self _)
      (Reader.run_description s.rest)
    refine ⟨some w, v, found, rest, h, _, ⟨d, hd, _, ⟨[t], ⟨t, hk, rfl⟩, u, hw, rfl⟩, rfl⟩, ?_⟩
    rw [← hrest, hsplit]
    simp
  · exact ⟨none, fun v found rest hdone => h ⟨v, found, rest, hdone⟩⟩

/-- The words of a tree begin with the keyword of its kind, behind a description. -/
theorem splitDescription_words {w : Written} {used : List Token} (h : used ∈ w.words)
    (rest : List Token) : ∃ t, t.kind.statement? = some w.kind ∧ ∃ u ∈ w.wordsAfter,
      (splitDescription (used ++ rest)).2 = t :: (u ++ rest) := by
  obtain ⟨d, hd, _, ⟨_, ⟨t, ht, rfl⟩, u, hu, rfl⟩, rfl⟩ := h
  obtain ⟨k, hk, -⟩ := TokenKind.statement?_eq_some_iff.mp ht
  have hclear : Reader.Clear [.string, .blockString] (t :: (u ++ rest)) := by simp [hk]
  obtain ⟨a, ds, hrun⟩ :=
    Reader.recognizes_description.complete hd (Nat.lt_succ_self d.length) hclear
  have hsplit : d ++ ([t] ++ u) ++ rest = d ++ t :: (u ++ rest) := by simp
  refine ⟨t, ht, u, hu, ?_⟩
  rw [hsplit]
  exact congrArg Outcome.rest ((Reader.run_description _).symm.trans hrun)

/-- A definition keeps the names of each tree that its statement is a word of: what stands behind
the statement does not matter to it. -/
theorem keeps_of_reads {v : Definition} {found : Diagnostics} {used rest : List Token} {w : Written}
    (h : s.statement? = some (.done v found rest)) (hused : used ∈ w.words)
    (hrest : used ++ rest = s.rest) : v.Keeps w := by
  obtain ⟨t, ts, k, hsplit, hk, hrun⟩ := exists_of_statement? h
  obtain ⟨t', ht, u, hu, hwords⟩ := splitDescription_words hused rest
  rw [hrest, hsplit] at hwords
  obtain ⟨rfl, rfl⟩ := List.cons.inj hwords
  obtain rfl : k = w.kind := Option.some.inj (hk.symm.trans ht)
  have hcut := (Reader.kept_cuts rest).definition (splitDescription s.rest).1 w.kind u
    (.done v found []) trivial hrun
  obtain ⟨a, ds, ha, hkeeps⟩ := Reader.makes_definition (splitDescription s.rest).1 w u hu []
    (by simp [Reader.Clear])
  rw [List.append_nil, hcut] at ha
  cases ha
  exact hkeeps

/-- A pass defines what it reads, and passes the names in it. -/
theorem pass_of_reads (stop : Token) {w : Option Written} (h : s.Reads w) (hzero : s.depth = 0) :
    ∃ vs front, (s.pass stop).document = vs.foldl Document.define s.document ∧
      List.Forall₂ Definition.Keeps vs w.toList ∧ front ++ (s.pass stop).rest = s.rest ∧
      (w.toList.flatMap Written.typeNames).Sublist front := by
  cases w with
  | some w =>
    obtain ⟨v, found, rest, hdone, used, hused, hrest⟩ := h
    refine ⟨[v], used, ?_, .cons (keeps_of_reads hdone hused hrest) .nil, ?_, ?_⟩
    · rw [pass_of_done stop hdone]
      rfl
    · rw [pass_of_done stop hdone]
      exact hrest
    · simpa using w.stands used hused
  | none =>
    have hnone : (s.pass stop).document = s.document ∧ (s.pass stop).rest <:+ s.rest := by
      cases ho : s.statement? with
      | none =>
        rw [pass_of_none stop ho]
        exact ⟨rfl, splitDescription_suffix s.rest⟩
      | some o =>
        cases o with
        | done v found rest => exact absurd ho (h v found rest)
        | stuck fault found rest =>
          obtain ⟨⟨_, -, hdocument, -⟩, -⟩ := fails_of_stuck stop ho hzero
          obtain ⟨t, rest', hts, -, hrest⟩ := rest_pass stop ho hzero
          exact ⟨hdocument, hrest.trans ((List.suffix_cons t rest').trans hts)⟩
    obtain ⟨hdocument, front, hrest⟩ := hnone
    exact ⟨[], front, hdocument, .nil, hrest, List.nil_sublist front⟩

/-- A run defines what its passes read, and passes the names in it. -/
theorem Runs.reads {stop : Token} {e : Progress} {ss : List Progress} (h : Runs stop s ss e)
    (hs : s.Ready) {ws : List (Option Written)} (hr : List.Forall₂ Reads ss ws) :
    ∃ vs, e.document = vs.foldl Document.define s.document ∧
      List.Forall₂ Definition.Keeps vs ws.reduceOption ∧
      (ws.reduceOption.flatMap Written.typeNames).Sublist s.rest := by
  induction h generalizing ws with
  | ended | aborted =>
    cases hr
    exact ⟨[], rfl, .nil, List.nil_sublist _⟩
  | @next s e ss hrest ha _ ih =>
    obtain _ | @⟨_, w, _, ws, hw, hws⟩ := hr
    have hzero := hs.resolve_left hrest
    obtain ⟨vs, front, hdocument, hkeeps, hfront, hnames⟩ := pass_of_reads stop hw hzero
    obtain ⟨vs', hdocument', hkeeps', hnames'⟩ := ih (ready_pass stop hzero) hws
    have hsplit : (w :: ws).reduceOption = w.toList ++ ws.reduceOption := by
      cases w <;> rfl
    refine ⟨vs ++ vs', ?_, ?_, ?_⟩
    · rw [List.foldl_append, ← hdocument, hdocument']
    · rw [hsplit]
      exact List.rel_append hkeeps hkeeps'
    · rw [hsplit, List.flatMap_append, ← hfront]
      exact hnames.append hnames'

/-- The sites in what a run makes of the tokens of a text are the names that count in what its
passes read. -/
theorem Runs.map_sites {source name : String} {e : Progress} {ss : List Progress}
    (h : Runs (Tokens.ofString source).stop (start (Tokens.ofString source).words name) ss e)
    {ws : List (Option Written)} (hr : List.Forall₂ Reads ss ws) :
    (Written.surviving ws.reduceOption).Sublist (Tokens.ofString source).words ∧
      e.document.sites.map (fun s => (s.name, s.location)) =
        (Written.surviving ws.reduceOption).map Token.mention := by
  obtain ⟨vs, hdocument, hkeeps, hnames⟩ := h.reads (.inr rfl) hr
  have hsub : (Written.surviving ws.reduceOption).Sublist (Tokens.ofString source).words :=
    ((lasts_sublist _ _).flatMap _).trans hnames
  have hpositions := Tokens.pairwise_position .start source.toList
  have hlt := hpositions.sublist (hsub.trans (List.sublist_append_left _ _))
  refine ⟨hsub, ?_⟩
  rw [hdocument]
  exact Document.map_sites_of_perm (Document.mentions_perm hkeeps name) hlt

theorem exists_forall₂_reads (ss : List Progress) : ∃ ws, List.Forall₂ Reads ss ws := by
  choose w hw using exists_reads
  exact ⟨ss.map w, List.forall₂_map_right_iff.mpr (List.forall₂_same.mpr fun s _ => hw s)⟩

end Progress

/-! ### Reading a text -/

/-- The sites of the references in the document of a text follow the text. Whatever the names in the
statements that the passes of the loop read, and there are such, the sites are those that count: of
a statement that is given up none, of statements that define one thing those of the last, and of
fields, arguments and interfaces of one name those of the first. They come in the order in which
they stand among the tokens, so that none comes twice, and each has the text and the place of its
token. -/
theorem parse_sites (source name : String) :
    let ts := Tokens.ofString source
    let p := parse source name
    ∃ ss e, (∀ ss' e', Progress.Runs ts.stop (.start ts.words name) ss' e' ↔ ss' = ss ∧ e' = e) ∧
      p.document = e.document ∧
      (∃ ws, List.Forall₂ Progress.Reads ss ws) ∧
      (∀ ws, List.Forall₂ Progress.Reads ss ws →
        (Written.surviving ws.reduceOption).Sublist ts.words ∧
        p.sites.map (fun s => (s.name, s.location)) =
          (Written.surviving ws.reduceOption).map fun t => (t.text, t.location)) ∧
      p.sites.Pairwise (fun s s' => s.location.span.start < s'.location.span.start) ∧
      ∀ s ∈ p.sites, (∃ t ∈ ts.words, t.text = s.name ∧ t.location = s.location) ∧
        ∃ front back : String, source = front ++ s.name ++ back ∧
          s.location.span = ⟨front.utf8ByteSize, (front ++ s.name).utf8ByteSize⟩ := by
  intro ts p
  have hready : (Progress.start ts.words name).Ready := .inr rfl
  obtain ⟨ss, e, hrun⟩ := Progress.exists_runs ts.stop _ hready
  have hdocument : p.document = e.document := (hrun.eq_items hready rfl).1.symm
  have hsites : ∀ ws, List.Forall₂ Progress.Reads ss ws →
      (Written.surviving ws.reduceOption).Sublist ts.words ∧
      p.sites.map (fun s => (s.name, s.location)) =
        (Written.surviving ws.reduceOption).map Token.mention := by
    intro ws hws
    rw [Parsed.sites, hdocument]
    exact hrun.map_sites hws
  obtain ⟨ws, hws⟩ := Progress.exists_forall₂_reads ss
  obtain ⟨hsub, hnames⟩ := hsites ws hws
  refine ⟨ss, e, fun ss' e' => ⟨hrun.unique, ?_⟩, hdocument, ⟨ws, hws⟩, hsites, ?_, fun s hs => ?_⟩
  · rintro ⟨rfl, rfl⟩
    exact hrun
  · have htiles : Tiles 0 ts.words source.toList := Tokens.tiles_ofCursor .start source.toList
    have hmap : (p.sites.map fun s => (s.name, s.location)).Pairwise
        fun a b => a.2.span.start < b.2.span.start := by
      rw [hnames]
      exact List.pairwise_map.mpr (htiles.pairwise_start.sublist hsub)
    rw [List.pairwise_map] at hmap
    exact hmap
  · have hmem : (s.name, s.location) ∈ (Written.surviving ws.reduceOption).map Token.mention :=
      hnames ▸ List.mem_map_of_mem hs
    obtain ⟨t, ht, heq⟩ := List.mem_map.mp hmem
    obtain ⟨htext, hlocation⟩ := Prod.mk.inj heq
    have hword : t ∈ ts.words := hsub.subset ht
    refine ⟨⟨t, hword, htext, hlocation⟩, ?_⟩
    rw [← htext, ← hlocation]
    exact Tokens.exists_of_mem_ofString (List.mem_append_left _ hword)

/-- The second `T` counts, and the first `f` in it. -/
example : (parse "scalar T type T{f:B f:C}" "D").sites.map (·.name) = ["B"] := by decide +kernel

end SchemaLang
