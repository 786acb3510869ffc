import SchemaLang.Load
import SchemaLang.Proofs.Acceptance
import SchemaLang.Proofs.Document.Unbound
import SchemaLang.Proofs.Reader.Cuts
import SchemaLang.Proofs.Reader.Ensures
import SchemaLang.Proofs.Text.Cut

/-! Reading that stops before the end of a text. It stops at the one fatal diagnostic, which is the
last one, and what was read until then is what is read of the text before the place where it
stopped. The parser has looked beyond that place, so it is shown that a text can be cut off between
any two rounds of reading: neither tokens nor statements depend on what comes next but for the place
of a fault, and no statement is stuck at a token that is left for the next round. -/

namespace SchemaLang

/-! ### What is fatal -/

/-- All that is found is found by reading, and the fatal diagnostics are those that stop it. -/
theorem found_of_mem_items {stop : Token} {ts : List Token} {i : Item} (hi : i ∈ items stop ts)
    {d : Diagnostic} (hd : d ∈ i.found) : d.phase = .parse ∧ d.isFatal = i.isStop := by
  have hstructural : ∀ {d : Diagnostic}, d.kind = .structural →
      d.phase = .parse ∧ d.isFatal = false := by
    rintro ⟨cause, location⟩ hk
    cases cause with
    | notAStatement found => cases hk
    | _ => exact ⟨by rw [Diagnostic.phase, hk]; rfl, rfl⟩
  induction ts using items_induction with
  | nil =>
    rw [items_nil] at hi
    cases hi
  | ended ts hne hsplit =>
    rw [items_of_end hne hsplit, List.mem_singleton] at hi
    subst hi
    rw [List.mem_singleton.mp hd]
    exact ⟨rfl, rfl⟩
  | other ts t rest hsplit hk =>
    rw [items_of_other hsplit hk, List.mem_singleton] at hi
    subst hi
    rw [List.mem_singleton.mp hd]
    exact ⟨rfl, rfl⟩
  | done ts t rest k v ds rest' hsplit hk hrun ih =>
    rw [items_of_done hsplit hk hrun, List.mem_cons] at hi
    rcases hi with rfl | hi
    · apply hstructural
      have hfound := Reader.kept_structural.definition (splitDescription ts).1 k rest d
      rw [hrun] at hfound
      exact hfound hd
    · exact ih hi
  | stuck ts t rest k fault ds rest' hsplit hk hrun ih =>
    rw [items_of_stuck hsplit hk hrun, List.mem_cons] at hi
    rcases hi with rfl | hi
    · rcases List.mem_append.mp hd with hd | hd
      · apply hstructural
        have hfound := Reader.kept_structural.definition (splitDescription ts).1 k rest d
        rw [hrun] at hfound
        exact hfound hd
      · rw [List.mem_singleton.mp hd]
        exact ⟨rfl, rfl⟩
    · exact ih hi

/-- Reading stops early exactly if something fatal is found. -/
theorem hasFatal_parse (source name : String) :
    (parse source name).diagnostics.hasFatal = (parse source name).aborted := by
  rw [Bool.eq_iff_iff]
  simp only [parse, Tokens.parse, Parsed.ofItems, Diagnostics.hasFatal, List.any_eq_true,
    List.mem_flatMap]
  constructor
  · rintro ⟨d, ⟨i, hi, hd⟩, hfatal⟩
    exact ⟨i, hi, (found_of_mem_items hi hd).2 ▸ hfatal⟩
  · rintro ⟨i, hi, hstop⟩
    cases i with
    | stopped d =>
      have hd : d ∈ (Item.stopped d).found := List.mem_singleton_self d
      exact ⟨d, ⟨_, hi, hd⟩, (found_of_mem_items hi hd).2⟩
    | defined d ds => cases hstop
    | givenUp ds => cases hstop

theorem phase_of_mem_parse {source name : String} {d : Diagnostic}
    (h : d ∈ (parse source name).diagnostics) : d.phase = .parse := by
  obtain ⟨i, hi, hd⟩ := List.mem_flatMap.mp h
  exact (found_of_mem_items hi hd).1

/-! ### Where reading stops -/

/-- Something comes, and no statement begins there or behind a description there. -/
structure BreaksOff (ts : List Token) : Prop where
  ne_nil : ts ≠ []
  other : ¬ Starts (splitDescription ts).2

/-- What is reported where no statement begins. -/
def complaint (stop : Token) (ts : List Token) : Diagnostic where
  cause := .notAStatement (Reader.describeNext (splitDescription ts).2)
  location := nextLocation stop (splitDescription ts).2

theorem items_of_breaksOff {ts : List Token} (h : BreaksOff ts) (stop : Token) :
    items stop ts = [.stopped (complaint stop ts)] := by
  cases hsplit : (splitDescription ts).2 with
  | nil =>
    rw [items_of_end h.ne_nil hsplit, complaint, hsplit]
    rfl
  | cons t rest =>
    have hk : t.kind.statement? = none := by
      rw [← Option.not_isSome_iff_eq_none]
      intro hsome
      apply h.other
      rw [hsplit]
      exact ⟨t, rfl, hsome⟩
    rw [items_of_other hsplit hk, complaint, hsplit]
    rfl

/-! ### Cutting off between two rounds -/

/-- One token of a statement that is given up: it is left if it begins a statement outside braces,
it is the last one to be passed over if it closes the last brace, and else more are passed over. -/
theorem skipStatement_cons (depth : Nat) (t : Token) (ts : List Token) :
    skipStatement depth (t :: ts) =
      if depth = 0 ∧ t.kind.startsStatement = true then t :: ts
      else if t.kind = .mark .rbrace ∧ depth ≤ 1 then ts
      else skipStatement (openBraces depth [t]) ts := by
  rw [skipStatement, openBraces, List.foldl_cons, List.foldl_nil]
  split
  next => rfl
  next =>
    split
    next hk => rw [if_neg (by simp [hk])]
    next hk => simp only [hk, true_and]
    next hl hr => rw [if_neg fun h => hr h.1]

theorem skipStatement_cut {depth : Nat} {ts left more : List Token}
    (h : skipStatement depth (ts ++ more) = left ++ more) : skipStatement depth ts = left := by
  induction ts generalizing depth with
  | nil =>
    have hlen := (skipStatement_suffix depth more).length_le
    rw [List.nil_append] at h
    rw [h, List.length_append] at hlen
    rw [List.eq_nil_of_length_eq_zero (l := left) (by omega)]
    rfl
  | cons t ts ih =>
    rw [List.cons_append, skipStatement_cons] at h
    rw [skipStatement_cons]
    split_ifs at h ⊢
    · exact (List.append_left_inj more).mp h
    · exact List.append_cancel_right h
    · exact ih h

theorem resume_cut {ts rest left more : List Token}
    (h : resume (ts ++ more) (rest ++ more) = left ++ more) : resume ts rest = left := by
  rw [resume, List.length_append, List.length_append, Nat.add_sub_add_right,
    List.take_append_of_le_length (Nat.sub_le _ _)] at h
  exact skipStatement_cut h

/-- Only before a statement is nothing passed over. -/
theorem starts_of_skipStatement_eq {depth : Nat} {ts : List Token} (hne : ts ≠ [])
    (h : skipStatement depth ts = ts) : Starts ts := by
  obtain ⟨t, us, rfl⟩ := List.exists_cons_of_ne_nil hne
  have hshort : ∀ vs, vs <:+ us → vs ≠ t :: us := by
    rintro vs hvs rfl
    exact Nat.not_succ_le_self _ hvs.length_le
  rw [skipStatement_cons] at h
  split_ifs at h with hs hc
  · exact ⟨t, rfl, hs.2⟩
  · exact absurd h (hshort us (List.suffix_refl us))
  · exact absurd h (hshort _ (skipStatement_suffix _ us))

theorem Starts.not_breaksOff {ts : List Token} (h : Starts ts) : ¬ BreaksOff ts := by
  obtain ⟨t, ht, hstart⟩ := h
  obtain ⟨us, rfl⟩ := List.head?_eq_some_iff.mp ht
  obtain ⟨k, hk⟩ := Option.isSome_iff_exists.mp hstart
  obtain ⟨w, hw, -⟩ := TokenKind.statement?_eq_some_iff.mp hk
  intro hbreaks
  apply hbreaks.other
  rw [Reader.splitDescription_of_clear (by simp [hw])]
  exact ⟨t, rfl, hstart⟩

/-- The keyword of a statement and the description before it stay if something behind is cut off. -/
theorem splitDescription_cut {ts rest more : List Token} {t : Token}
    (h : (splitDescription ts).2 = t :: (rest ++ more)) :
    ∃ read, ts = read ++ more ∧ splitDescription read = ((splitDescription ts).1, t :: rest) := by
  obtain ⟨front, hfront⟩ := splitDescription_suffix ts
  rw [h] at hfront
  have hts : ts = front ++ t :: rest ++ more := by rw [← hfront]; simp
  refine ⟨front ++ t :: rest, hts, ?_⟩
  have hne : front ++ t :: rest ≠ [] := by simp
  have hsplit := splitDescription_append hne more
  rw [← hts] at hsplit
  rw [hsplit] at h ⊢
  exact Prod.ext rfl ((List.append_left_inj more).mp h)

theorem exists_items_cut {stop : Token} {ts : List Token}
    (h : (items stop ts).any Item.isStop = true) :
    ∃ read item, ts = read ++ item ∧ BreaksOff item ∧
      ∀ stop', items stop ts = items stop' read ++ [.stopped (complaint stop item)] ∧
        (items stop' read).any Item.isStop = false := by
  induction ts using items_induction with
  | nil =>
    rw [items_nil] at h
    cases h
  | ended ts hne hsplit =>
    have hbreaks : BreaksOff ts := ⟨hne, by rw [hsplit]; nofun⟩
    refine ⟨[], ts, rfl, hbreaks, fun stop' => ?_⟩
    rw [items_of_breaksOff hbreaks, items_nil]
    exact ⟨rfl, rfl⟩
  | other ts t rest hsplit hk =>
    have hbreaks : BreaksOff ts := by
      refine ⟨ne_nil_of_splitDescription hsplit, ?_⟩
      rw [hsplit]
      rintro ⟨u, hu, hstart⟩
      cases hu
      rw [TokenKind.startsStatement, hk] at hstart
      cases hstart
    refine ⟨[], ts, rfl, hbreaks, fun stop' => ?_⟩
    rw [items_of_breaksOff hbreaks, items_nil]
    exact ⟨rfl, rfl⟩
  | done ts t rest k d ds rest' hsplit hk hrun ih =>
    rw [items_of_done hsplit hk hrun] at h ⊢
    obtain ⟨left, item, rfl, hbreaks, hitems⟩ := ih h
    obtain ⟨front, rfl⟩ : ∃ front, rest = front ++ left ++ item := by
      obtain ⟨front, hfront⟩ := suffix_of_done hrun
      exact ⟨front, by rw [← hfront, List.append_assoc]⟩
    obtain ⟨read, rfl, hread⟩ := splitDescription_cut hsplit
    refine ⟨read, item, rfl, hbreaks, fun stop' => ?_⟩
    have hcut := (Reader.kept_cuts item).definition _ k (front ++ left) (.done d ds left) trivial
      hrun
    have hfirst : items stop' read = .defined d ds :: items stop' left :=
      items_of_done (by rw [hread]) hk (by rw [hread]; exact hcut)
    obtain ⟨heq, hstop⟩ := hitems stop'
    rw [hfirst, heq, List.cons_append]
    exact ⟨rfl, hstop⟩
  | stuck ts t rest k fault ds rest' hsplit hk hrun ih =>
    rw [items_of_stuck hsplit hk hrun] at h ⊢
    obtain ⟨left, item, hleft, hbreaks, hitems⟩ := ih h
    obtain ⟨mid, hmid⟩ : left ++ item <:+ rest' := hleft ▸ skipStatement_suffix _ rest'
    obtain ⟨front, hfront⟩ : rest' <:+ rest := by
      have hsuffix := (Reader.definition (splitDescription ts).1 k).rest_run_suffix rest
      rwa [hrun] at hsuffix
    rw [← List.append_assoc] at hmid
    subst hmid
    rw [← List.append_assoc] at hfront
    subst hfront
    -- where the statement was stuck no other one begins, so that token was passed over
    have hne : mid ++ left ≠ [] := by
      intro hnil
      rw [List.append_eq_nil_iff] at hnil
      obtain ⟨rfl, rfl⟩ := hnil
      exact (starts_of_skipStatement_eq hbreaks.ne_nil hleft).not_breaksOff hbreaks
    obtain ⟨read, rfl, hread⟩ := splitDescription_cut hsplit
    refine ⟨read, item, rfl, hbreaks, fun stop' => ?_⟩
    have hcut := (Reader.kept_cuts item).definition _ k (front ++ (mid ++ left))
      (.stuck fault ds (mid ++ left)) hne hrun
    have hresume : resume (t :: (front ++ (mid ++ left))) (mid ++ left) = left := resume_cut hleft
    have hfound : stuckDiagnostics stop' fault ds (mid ++ left) =
        stuckDiagnostics stop fault ds (mid ++ left ++ item) := by
      obtain ⟨u, us, hu⟩ := List.exists_cons_of_ne_nil hne
      rw [hu]
      rfl
    have hfirst : items stop' read =
        .givenUp (stuckDiagnostics stop' fault ds (mid ++ left)) :: items stop' left := by
      rw [items_of_stuck (by rw [hread]) hk (by rw [hread]; exact hcut), hresume]
    obtain ⟨heq, hstop⟩ := hitems stop'
    rw [hfirst, heq, hfound, List.cons_append]
    exact ⟨rfl, hstop⟩

/-! ### A text cut off where reading stops -/

variable {source name : String}

theorem Parsed.ofItems_stopped (name : String) (rounds : List Item) (d : Diagnostic) :
    ofItems name (rounds ++ [.stopped d]) =
      ⟨(ofItems name rounds).document, (ofItems name rounds).diagnostics ++ [d], true⟩ := by
  simp only [ofItems, List.filterMap_append, List.flatMap_append, List.any_append,
    List.foldl_append]
  rw [show [Item.stopped d].any Item.isStop = true from rfl, Bool.or_true]
  rfl

/-- If reading stops early, it does so at a place before which the same is read, to the end. -/
theorem exists_parse_cut (h : (parse source name).aborted = true) :
    ∃ (front back : String) (item : List Token), source = front ++ back ∧
      (Tokens.ofString source).words = (Tokens.ofString front).words ++ item ∧ BreaksOff item ∧
      (∀ t ∈ item.head?, front.utf8ByteSize = t.location.span.start) ∧
      parse source name = ⟨(parse front name).document, (parse front name).diagnostics ++
        [complaint (Tokens.ofString source).stop item], true⟩ ∧
      (parse front name).aborted = false := by
  obtain ⟨read, item, hwords, hbreaks, hitems⟩ := exists_items_cut h
  obtain ⟨t, more, rfl⟩ := List.exists_cons_of_ne_nil hbreaks.ne_nil
  obtain ⟨front, back, hsource, hbytes, rfl⟩ := Tokens.ofString_cut hwords
  obtain ⟨heq, hstop⟩ := hitems (Tokens.ofString front).stop
  refine ⟨front, back, t :: more, hsource, hwords, hbreaks, ?_, ?_, hstop⟩
  · rintro u hu
    cases hu
    exact hbytes
  · rw [parse, Tokens.parse, heq, Parsed.ofItems_stopped]
    rfl

namespace Registry

/-- Loading a text whose reading stops early tells what was found by reading and does nothing
else. -/
theorem load_of_aborted {reg : Registry} {options : LoadOptions}
    (h : (parse source (options.document.getD reg.current)).aborted = true) :
    reg.load source options = (⟨(parse source (options.document.getD reg.current)).document,
      (parse source (options.document.getD reg.current)).diagnostics, true⟩, reg) := by
  have hne : (parse source (options.document.getD reg.current)).diagnostics ≠ [] :=
    Parsed.diagnostics_ne_nil_of_aborted h
  rw [load, examine, if_pos h]
  dsimp only
  rw [if_neg]
  rintro ⟨-, hok⟩
  exact hne (List.isEmpty_iff.mp hok)

end Registry

/-- Reading stops early exactly if something fatal is found. Then that is the last thing found and
the only fatal one, and the text before the description or token where it stopped is read as the
same document, with the same references and with what was found before, to its end. A registry in
which the text is loaded reports what reading found and stays as it is, and the references of the
document are bound to nothing. -/
theorem parse_aborted (source name : String) :
    let p := parse source name
    p.aborted = p.diagnostics.hasFatal ∧
    (p.aborted = true → ∃ (front back : String) (item : List Token),
      let cut := parse front name
      let fatal := complaint (Tokens.ofString source).stop item
      source = front ++ back ∧
      (Tokens.ofString source).words = (Tokens.ofString front).words ++ item ∧
      BreaksOff item ∧ (∀ t ∈ item.head?, front.utf8ByteSize = t.location.span.start) ∧
      p.diagnostics = cut.diagnostics ++ [fatal] ∧ fatal.isFatal = true ∧
      cut.diagnostics.hasFatal = false ∧ cut.aborted = false ∧
      cut.document = p.document ∧ cut.sites = p.sites ∧
      (∀ path r, p.document.ref? path = some r → r.binding = none) ∧
      (∀ d ∈ p.diagnostics, d.phase = .parse) ∧
      ∀ (reg : Registry) (options : LoadOptions), options.document.getD reg.current = name →
        reg.load source options = (⟨p.document, p.diagnostics, true⟩, reg)) := by
  intro p
  refine ⟨(hasFatal_parse source name).symm, fun h => ?_⟩
  obtain ⟨front, back, item, hsource, hwords, hbreaks, hbytes, hparse, hcut⟩ := exists_parse_cut h
  have hdocument : (parse front name).document = p.document := by
    rw [show p = _ from hparse]
  refine ⟨front, back, item, hsource, hwords, hbreaks, hbytes, ?_, rfl, ?_, hcut, hdocument, ?_,
    fun path r hr => (wellFormed_parse source name).binding hr, fun d => phase_of_mem_parse, ?_⟩
  · rw [show p = _ from hparse]
  · rw [hasFatal_parse, hcut]
  · rw [Parsed.sites, hdocument, Parsed.sites]
  · rintro reg options rfl
    exact Registry.load_of_aborted h

/-- A type, and behind it a description of something that is no statement. -/
theorem parse_aborted_description :
    let p := parse "type A \"x\" )" "D"
    p.aborted = true ∧ p.document.types.keys = ["A"] ∧ ∃ (front back : String) (fatal : Diagnostic),
      "type A \"x\" )" = front ++ back ∧
      p.diagnostics = (parse front "D").diagnostics ++ [fatal] ∧ fatal.isFatal = true ∧
      (parse front "D").aborted = false ∧ (parse front "D").document = p.document := by
  intro p
  have hstop : p.aborted = true := by decide +kernel
  have hkeys : p.document.types.keys = ["A"] := by decide +kernel
  obtain ⟨-, habort⟩ := parse_aborted "type A \"x\" )" "D"
  obtain ⟨front, back, item, hsource, -, -, -, hfound, hfatal, -, hcut, hdocument, -⟩ :=
    habort hstop
  exact ⟨hstop, hkeys, front, back, _, hsource, hfound, hfatal, hcut, hdocument⟩

end SchemaLang
