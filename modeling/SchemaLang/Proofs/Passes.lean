import SchemaLang.Proofs.Reader.Kept
import SchemaLang.Proofs.Reader.Recursion
import SchemaLang.Proofs.Words

/-! The loop that reads statements, pass by pass. It counts braces as it takes tokens and never sets
the count back: none is open whenever a pass begins, since a statement that is read closes those
that it opens, and one that is given up is passed over as far as none is open. Each pass takes a
token or stops the loop, and has one fault of form to report unless it reads a statement. -/

namespace SchemaLang

/-! ### Braces passed over -/

/-- What is passed over leaves no brace open, unless the text ends first. -/
theorem exists_skipStatement (depth : Nat) (ts : List Token) :
    ∃ us, us ++ skipStatement depth ts = ts ∧
      (skipStatement depth ts = [] ∨ openBraces depth us = 0) := by
  induction ts generalizing depth with
  | nil => exact ⟨[], rfl, .inl rfl⟩
  | cons t ts ih =>
    have hfirst : ∀ depth', openBraces depth [t] = depth' →
        ∃ us, us ++ skipStatement depth' ts = t :: ts ∧
          (skipStatement depth' ts = [] ∨ openBraces depth us = 0) := by
      rintro _ rfl
      obtain ⟨us, hus, hdepth⟩ := ih (openBraces depth [t])
      exact ⟨t :: us, by rw [List.cons_append, hus], hdepth⟩
    rw [skipStatement]
    split
    next hstop => exact ⟨[], rfl, .inr hstop.1⟩
    next =>
      split
      next hk => exact hfirst _ (by simp [openBraces, hk])
      next hk =>
        split
        next hle => exact ⟨[t], rfl, .inr (by simp [openBraces, hk]; omega)⟩
        next => exact hfirst _ (by simp [openBraces, hk])
      next hl hr => exact hfirst _ (by simp [openBraces])

/-! ### Passes -/

/-- Where the loop stands: the tokens that are left, the number of braces that are open, and what
has been read and reported. -/
structure Progress where
  rest : List Token
  depth : Nat
  document : Document
  diagnostics : Diagnostics
  aborted : Bool

namespace Progress

def start (ts : List Token) (name : String) : Progress := ⟨ts, 0, .empty name, [], false⟩

/-- The tokens in front of `rest` taken, and the braces among them counted. -/
def take (s : Progress) (rest : List Token) : Progress :=
  { s with
    rest
    depth := openBraces s.depth (s.rest.take (s.rest.length - rest.length)) }

def report (s : Progress) (ds : Diagnostics) : Progress :=
  { s with diagnostics := s.diagnostics ++ ds }

/-- What comes of the statement that begins behind a description, if one begins there. -/
def statement? (s : Progress) : Option (Outcome Definition) :=
  match splitDescription s.rest with
  | (description, t :: rest) =>
    t.kind.statement?.map fun k => (Reader.definition description k).run rest
  | (_, []) => none

/-- One pass of the loop. -/
def pass (stop : Token) (s : Progress) : Progress :=
  let ts := (splitDescription s.rest).2
  let begun := s.take ts
  match s.statement? with
  | none =>
    { begun.report [⟨.notAStatement (Reader.describeNext ts), nextLocation stop ts⟩] with
      aborted := true }
  | some (.done v found rest) =>
    { (begun.take rest).report found with document := s.document.define v }
  | some (.stuck fault found rest) =>
    let stuck := (begun.take rest).report (stuckDiagnostics stop fault found rest)
    stuck.take (skipStatement stuck.depth rest)

/-- A statement begins and is given up. -/
def isAbandoned (s : Progress) : Bool :=
  match s.statement? with
  | some (.stuck _ _ _) => true
  | some (.done _ _ _) | none => false

end Progress

/-- From `s` on the loop makes passes, of which each begins where `ss` tells, and ends at `e`. It
goes on as long as there are tokens and nothing has stopped it. -/
inductive Progress.Runs (stop : Token) : Progress → List Progress → Progress → Prop
  | ended {s : Progress} (h : s.rest = []) : Runs stop s [] s
  | aborted {s : Progress} (h : s.aborted = true) : Runs stop s [] s
  | next {s e : Progress} {ss : List Progress} (hrest : s.rest ≠ []) (haborted : s.aborted = false)
      (h : Runs stop (s.pass stop) ss e) : Runs stop s (s :: ss) e

/-- The number of faults of form. -/
def formFaults (ds : Diagnostics) : Nat := ds.countP fun d => d.kind == .form

theorem formFaults_append (ds es : Diagnostics) :
    formFaults (ds ++ es) = formFaults ds + formFaults es := List.countP_append

theorem formFaults_eq_zero {ds : Diagnostics} (h : ∀ d ∈ ds, d.kind ≠ .form) :
    formFaults ds = 0 := by
  refine List.countP_eq_zero.mpr fun d hd => ?_
  simpa using h d hd

/-- The number of keywords that could begin a statement. -/
def statementKeywords (ts : List Token) : Nat := ts.countP fun t => t.kind.startsStatement

theorem statementKeywords_le {ts us : List Token} (h : ts <:+ us) :
    statementKeywords ts ≤ statementKeywords us := h.sublist.countP_le

/-! ### One pass -/

namespace Progress

variable (stop : Token) {t : Token} {s : Progress} {rest rest' us ts : List Token}
  {k : StatementKind} {found : Diagnostics}

theorem depth_take (h : us ++ ts = s.rest) : (s.take ts).depth = openBraces s.depth us := by
  have htake : s.rest.take (s.rest.length - ts.length) = us := by
    rw [← h, List.length_append, Nat.add_sub_cancel, List.take_left]
  rw [take, htake]

/-- A description opens no brace. -/
theorem depth_splitDescription (s : Progress) :
    (s.take (splitDescription s.rest).2).depth = s.depth := by
  obtain ⟨⟨us, hus, hsplit⟩, -⟩ := Reader.recognizes_description.sound (Nat.lt_succ_self _)
    (Reader.run_description s.rest)
  rw [depth_take hsplit]
  exact Grammar.composes_openBraces.description us hus s.depth

theorem statement?_eq_none_iff :
    s.statement? = none ↔ ¬ Starts (splitDescription s.rest).2 := by
  rw [statement?]
  split
  next description t rest hsplit => simp [hsplit, Starts, TokenKind.startsStatement]
  next hsplit => simp [hsplit, Starts]

theorem exists_of_statement? {o : Outcome Definition} (h : s.statement? = some o) :
    ∃ t rest k, (splitDescription s.rest).2 = t :: rest ∧ t.kind.statement? = some k ∧
      (Reader.definition (splitDescription s.rest).1 k).run rest = o := by
  rw [statement?] at h
  split at h
  next description t rest hsplit =>
    obtain ⟨k, hk, hrun⟩ := Option.map_eq_some_iff.mp h
    exact ⟨t, rest, k, by rw [hsplit], hk, by rw [hsplit]; exact hrun⟩
  next => cases h

theorem items_of_none (hrest : s.rest ≠ []) (h : s.statement? = none) : items stop s.rest =
    [.stopped ⟨.notAStatement (Reader.describeNext (splitDescription s.rest).2),
      nextLocation stop (splitDescription s.rest).2⟩] := by
  cases hsplit : (splitDescription s.rest).2 with
  | nil => exact items_of_end hrest hsplit
  | cons t rest =>
    have hother := statement?_eq_none_iff.mp h
    rw [hsplit, Starts] at hother
    refine items_of_other hsplit ?_
    simpa [TokenKind.startsStatement] using hother

/-- No statement begins: the pass stops the loop. -/
theorem pass_of_none (h : s.statement? = none) : s.pass stop =
    { s with
      rest := (splitDescription s.rest).2
      diagnostics := s.diagnostics ++
        [⟨.notAStatement (Reader.describeNext (splitDescription s.rest).2),
          nextLocation stop (splitDescription s.rest).2⟩]
      aborted := true } := by
  have hdepth := depth_splitDescription s
  rw [pass, h]
  dsimp only [report]
  rw [hdepth]
  rfl

/-- A statement is read: it closes the braces that it opens. -/
theorem pass_of_done {v : Definition} (h : s.statement? = some (.done v found rest')) :
    s.pass stop =
      { s with
        rest := rest'
        document := s.document.define v
        diagnostics := s.diagnostics ++ found } := by
  obtain ⟨t, rest, k, hsplit, hk, hrun⟩ := exists_of_statement? h
  obtain ⟨⟨us, hus, rfl⟩, -⟩ := sound_of_done hrun
  obtain ⟨w, hw, -⟩ := TokenKind.statement?_eq_some_iff.mp hk
  have hdepth := depth_splitDescription s
  have hword : ∀ depth, openBraces depth ([t] ++ us) = depth :=
    Grammar.composes_openBraces.append [t] us (Grammar.composes_openBraces.word w _ ⟨t, hw, rfl⟩)
      (Grammar.composes_openBraces.afterKeyword k us hus)
  have htake : ((s.take (splitDescription s.rest).2).take rest').depth =
      openBraces (s.take (splitDescription s.rest).2).depth ([t] ++ us) := depth_take hsplit.symm
  rw [hword, hdepth] at htake
  rw [pass, h]
  dsimp only [report]
  rw [htake]
  rfl

/-- A statement is given up: what is passed over leaves no brace open, unless the text ends. -/
theorem pass_of_stuck {fault : Fault} (h : s.statement? = some (.stuck fault found rest'))
    (hzero : s.depth = 0) (hsplit : (splitDescription s.rest).2 = t :: rest) :
    ∃ depth, (resume (t :: rest) rest' = [] ∨ depth = 0) ∧ s.pass stop =
      { s with
        rest := resume (t :: rest) rest'
        depth
        diagnostics := s.diagnostics ++ stuckDiagnostics stop fault found rest' } := by
  have hbegun := depth_splitDescription s
  rw [hzero, hsplit] at hbegun
  have hresume : resume (t :: rest) rest' =
      skipStatement ((s.take (t :: rest)).take rest').depth rest' := by
    rw [take, hbegun]
    rfl
  obtain ⟨us, hus, hstop⟩ := exists_skipStatement ((s.take (t :: rest)).take rest').depth rest'
  have htake : (((s.take (t :: rest)).take rest').take (resume (t :: rest) rest')).depth =
      openBraces ((s.take (t :: rest)).take rest').depth us := by
    rw [hresume]
    exact depth_take hus
  refine ⟨_, hresume ▸ hstop, ?_⟩
  rw [← htake, hresume, pass, h, hsplit]
  rfl

/-- A pass in which a statement begins takes its keyword. -/
theorem rest_pass {o : Outcome Definition} (h : s.statement? = some o) (hzero : s.depth = 0) :
    ∃ t rest, t :: rest <:+ s.rest ∧ t.kind.startsStatement = true ∧
      (s.pass stop).rest <:+ rest := by
  obtain ⟨t, rest, k, hsplit, hk, hrun⟩ := exists_of_statement? h
  refine ⟨t, rest, hsplit ▸ splitDescription_suffix s.rest, by
    rw [TokenKind.startsStatement, hk, Option.isSome_some], ?_⟩
  cases o with
  | done v found rest' =>
    rw [pass_of_done stop h]
    exact suffix_of_done hrun
  | stuck fault found rest' =>
    obtain ⟨depth, -, hpass⟩ := pass_of_stuck stop h hzero hsplit
    rw [hpass]
    exact resume_suffix_of_stuck hrun

/-- A pass takes a token or stops the loop. -/
theorem length_pass_lt (hzero : s.depth = 0) :
    (s.pass stop).rest.length < s.rest.length ∨ (s.pass stop).aborted = true := by
  cases ho : s.statement? with
  | none =>
    rw [pass_of_none stop ho]
    exact .inr rfl
  | some o =>
    obtain ⟨t, rest, hts, -, hrest⟩ := rest_pass stop ho hzero
    have hlen := hts.length_le
    rw [List.length_cons] at hlen
    have := hrest.length_le
    exact .inl (by omega)

/-- No brace is open, if anything is left. -/
def Ready (s : Progress) : Prop := s.rest = [] ∨ s.depth = 0

theorem ready_pass (hzero : s.depth = 0) : (s.pass stop).Ready := by
  cases ho : s.statement? with
  | none =>
    rw [pass_of_none stop ho]
    exact .inr hzero
  | some o =>
    cases o with
    | done v found rest' =>
      rw [pass_of_done stop ho]
      exact .inr hzero
    | stuck fault found rest' =>
      obtain ⟨t, rest, k, hsplit, -⟩ := exists_of_statement? ho
      obtain ⟨depth, hstop, hpass⟩ := pass_of_stuck stop ho hzero hsplit
      rw [hpass]
      exact hstop

/-! ### What a pass reports -/

theorem formFaults_found {o : Outcome Definition} (h : s.statement? = some o) :
    formFaults o.found = 0 := by
  obtain ⟨t, rest, k, -, -, rfl⟩ := exists_of_statement? h
  refine formFaults_eq_zero fun d hd hk => ?_
  have hstructural := Reader.kept_structural.definition (splitDescription s.rest).1 k rest d hd
  rw [hstructural] at hk
  cases hk

/-- The pass reads a definition, which the document gains, and reports no fault of form. -/
def Defines (stop : Token) (s : Progress) : Prop :=
  ∃ v found rest, s.statement? = some (.done v found rest) ∧
    s.document.Gains v (s.pass stop).document ∧ formFaults found = 0 ∧
    (s.pass stop).diagnostics = s.diagnostics ++ found ∧ (s.pass stop).aborted = false

/-- The pass leaves the document as it is, and reports one fault of form. -/
def Fails (stop : Token) (s : Progress) : Prop :=
  ∃ found, formFaults found = 1 ∧ (s.pass stop).document = s.document ∧
    (s.pass stop).diagnostics = s.diagnostics ++ found

theorem fails_of_none (h : s.statement? = none) : s.Fails stop := by
  refine ⟨[_], ?_, by rw [pass_of_none stop h], by rw [pass_of_none stop h]⟩
  rfl

theorem defines_of_done {v : Definition} (h : s.statement? = some (.done v found rest'))
    (ha : s.aborted = false) : s.Defines stop := by
  refine ⟨v, found, rest', h, ?_⟩
  rw [pass_of_done stop h]
  exact ⟨s.document.gains_define v, formFaults_found h, rfl, ha⟩

theorem fails_of_stuck {fault : Fault} (h : s.statement? = some (.stuck fault found rest'))
    (hzero : s.depth = 0) : s.Fails stop ∧ (s.pass stop).aborted = s.aborted := by
  obtain ⟨t, rest, k, hsplit, -⟩ := exists_of_statement? h
  obtain ⟨depth, -, hpass⟩ := pass_of_stuck stop h hzero hsplit
  have hfaults : formFaults (stuckDiagnostics stop fault found rest') = 1 := by
    have hfound : formFaults found = 0 := formFaults_found h
    rw [stuckDiagnostics, formFaults_append, hfound]
    rfl
  exact ⟨⟨_, hfaults, by rw [hpass], by rw [hpass]⟩, by rw [hpass]⟩

/-! ### A run -/

variable {stop}

theorem Runs.of_aborted {e : Progress} {ss : List Progress} (h : Runs stop s ss e)
    (ha : s.aborted = true) : ss = [] ∧ e = s := by
  cases h with
  | ended | aborted => exact ⟨rfl, rfl⟩
  | next _ haborted => cases ha.symm.trans haborted

/-- There is no more than one run. -/
theorem Runs.unique {e e' : Progress} {ss ss' : List Progress} (h : Runs stop s ss e)
    (h' : Runs stop s ss' e') : ss' = ss ∧ e' = e := by
  induction h generalizing ss' e' with
  | ended hnil =>
    cases h' with
    | ended | aborted => exact ⟨rfl, rfl⟩
    | next hrest => exact absurd hnil hrest
  | aborted ha => exact h'.of_aborted ha
  | next hrest ha _ ih =>
    cases h' with
    | ended hnil => exact absurd hnil hrest
    | aborted ha' => cases ha'.symm.trans ha
    | next _ _ h' =>
      obtain ⟨rfl, rfl⟩ := ih h'
      exact ⟨rfl, rfl⟩

/-- The loop ends, since each pass leaves fewer tokens or stops it. -/
theorem exists_runs (stop : Token) (s : Progress) (hs : s.Ready) : ∃ ss e, Runs stop s ss e := by
  induction hn : s.rest.length using Nat.strongRecOn generalizing s with
  | _ n ih =>
    by_cases hrest : s.rest = []
    · exact ⟨[], s, .ended hrest⟩
    cases ha : s.aborted with
    | true => exact ⟨[], s, .aborted ha⟩
    | false =>
      have hzero := hs.resolve_left hrest
      rcases length_pass_lt stop hzero with hlt | hstop
      · obtain ⟨ss, e, h⟩ := ih _ (hn ▸ hlt) (s.pass stop) (ready_pass stop hzero) rfl
        exact ⟨s :: ss, e, .next hrest ha h⟩
      · exact ⟨[s], s.pass stop, .next hrest ha (.aborted hstop)⟩

section Run

variable {e : Progress} {ss : List Progress} (h : Runs stop s ss e)

include h

/-- No brace is open when a pass begins. -/
theorem Runs.begins (hs : s.Ready) :
    ∀ q ∈ ss, q.rest ≠ [] ∧ q.aborted = false ∧ q.depth = 0 := by
  induction h with
  | ended | aborted => nofun
  | next hrest ha _ ih =>
    have hzero := hs.resolve_left hrest
    exact List.forall_mem_cons.mpr ⟨⟨hrest, ha, hzero⟩, ih (ready_pass stop hzero)⟩

/-- The passes are the rounds of reading. -/
theorem Runs.eq_items (hs : s.Ready) (ha : s.aborted = false) :
    e.document = ((items stop s.rest).filterMap Item.definition?).foldl Document.define s.document ∧
      e.diagnostics = s.diagnostics ++ (items stop s.rest).flatMap Item.found ∧
      e.aborted = (items stop s.rest).any Item.isStop := by
  induction h with
  | ended hnil => simp [hnil, items_nil, ha]
  | aborted ha' => cases ha'.symm.trans ha
  | @next s e ss hrest _ hrun ih =>
    have hzero := hs.resolve_left hrest
    have hready : (s.pass stop).Ready := ready_pass stop hzero
    cases ho : s.statement? with
    | none =>
      have hpass := pass_of_none stop ho
      obtain ⟨-, rfl⟩ := hrun.of_aborted (by rw [hpass])
      rw [hpass, items_of_none stop hrest ho]
      exact ⟨rfl, rfl, rfl⟩
    | some o =>
      obtain ⟨t, rest, k, hsplit, hk, hdefinition⟩ := exists_of_statement? ho
      cases o with
      | done v found rest' =>
        have hpass := pass_of_done stop ho
        rw [hpass] at ih hready
        obtain ⟨hdocument, hdiagnostics, haborted⟩ := ih hready ha
        rw [items_of_done hsplit hk hdefinition]
        exact ⟨hdocument, hdiagnostics.trans (List.append_assoc _ _ _), haborted⟩
      | stuck fault found rest' =>
        obtain ⟨depth, -, hpass⟩ := pass_of_stuck stop ho hzero hsplit
        rw [hpass] at ih hready
        obtain ⟨hdocument, hdiagnostics, haborted⟩ := ih hready ha
        rw [items_of_stuck hsplit hk hdefinition]
        exact ⟨hdocument, hdiagnostics.trans (List.append_assoc _ _ _), haborted⟩

/-- A statement that is given up has one fault of form, and so has what stops the loop. -/
theorem Runs.formFaults_eq (hs : s.Ready) :
    formFaults e.diagnostics + (if s.aborted then 1 else 0) =
      formFaults s.diagnostics + ss.countP isAbandoned + (if e.aborted then 1 else 0) := by
  induction h with
  | ended | aborted => simp
  | @next s e ss hrest ha _ ih =>
    have hzero := hs.resolve_left hrest
    have hrun := ih (ready_pass stop hzero)
    rw [List.countP_cons, ha]
    cases ho : s.statement? with
    | none =>
      have haborted : (s.pass stop).aborted = true := by rw [pass_of_none stop ho]
      obtain ⟨found, hfaults, -, hfound⟩ := fails_of_none stop ho
      rw [hfound, formFaults_append, hfaults, haborted] at hrun
      simp only [isAbandoned, ho, Bool.false_eq_true, if_true, if_false] at hrun ⊢
      omega
    | some o =>
      cases o with
      | done v found rest' =>
        obtain ⟨v, found, -, -, -, hfaults, hfound, haborted⟩ := defines_of_done stop ho ha
        rw [hfound, formFaults_append, hfaults, haborted] at hrun
        simp only [isAbandoned, ho, Bool.false_eq_true, if_false] at hrun ⊢
        omega
      | stuck fault found rest' =>
        obtain ⟨⟨found, hfaults, -, hfound⟩, haborted⟩ := fails_of_stuck stop ho hzero
        rw [hfound, formFaults_append, hfaults, haborted, ha] at hrun
        simp only [isAbandoned, ho, Bool.false_eq_true, if_true, if_false] at hrun ⊢
        omega

/-- Each statement that is given up begins with a keyword of its own. -/
theorem Runs.countP_isAbandoned_le (hs : s.Ready) :
    ss.countP isAbandoned ≤ statementKeywords s.rest := by
  induction h with
  | ended | aborted => exact Nat.zero_le _
  | @next s e ss hrest ha _ ih =>
    have hzero := hs.resolve_left hrest
    have hrun := ih (ready_pass stop hzero)
    rw [List.countP_cons]
    cases ho : s.statement? with
    | none =>
      have hpass : (s.pass stop).rest = (splitDescription s.rest).2 := by rw [pass_of_none stop ho]
      rw [hpass] at hrun
      have hle := statementKeywords_le (splitDescription_suffix s.rest)
      simp only [isAbandoned, ho, Bool.false_eq_true, if_false]
      omega
    | some o =>
      obtain ⟨t, rest, hts, ht, hpass⟩ := rest_pass stop ho hzero
      have hkeyword := statementKeywords_le hts
      have hle := statementKeywords_le hpass
      rw [statementKeywords, List.countP_cons, ht, if_pos rfl] at hkeyword
      change statementKeywords rest + 1 ≤ _ at hkeyword
      split
      all_goals omega

end Run

end Progress

/-! ### Reading a text -/

/-- Reading a text ends, in passes that begin with no brace open, and of which each takes a token or
stops the loop; and so end the loops within a pass and the readers that call themselves. In a pass
in which a statement begins the document gains the definition that is read and no fault of form is
reported, or it stays as it is and one is reported; any other pass stops the loop, with one fault of
form. So there are as many of them as statements that are given up, and one more if the loop was
stopped, and no more than keywords that could begin a statement, and one more. -/
theorem parse_passes (source name : String) :
    let ts := Tokens.ofString source
    let p := parse source name
    ∃ ss e, (∀ ss' e', Progress.Runs ts.stop (.start ts.words name) ss' e' ↔ ss' = ss ∧ e' = e) ∧
      p = ⟨e.document, e.diagnostics, e.aborted⟩ ∧
      (∀ s ∈ ss, s.depth = 0 ∧ ((s.pass ts.stop).rest.length < s.rest.length ∨
        (s.pass ts.stop).aborted = true)) ∧
      (∀ {α σ : Type} {r : σ → Reader α} {body}, Reader.Recursive r body → Reader.Ends r body) ∧
      (∀ s ∈ ss, Starts (splitDescription s.rest).2 →
        s.Defines ts.stop ∧ s.isAbandoned = false ∨ s.Fails ts.stop ∧ s.isAbandoned = true) ∧
      (∀ s ∈ ss, ¬ Starts (splitDescription s.rest).2 →
        s.Fails ts.stop ∧ (s.pass ts.stop).aborted = true) ∧
      formFaults p.diagnostics =
        ss.countP Progress.isAbandoned + (if p.aborted then 1 else 0) ∧
      formFaults p.diagnostics ≤ statementKeywords ts.words + 1 := by
  intro ts p
  have hready : (Progress.start ts.words name).Ready := .inr rfl
  obtain ⟨ss, e, hrun⟩ := Progress.exists_runs ts.stop _ hready
  obtain ⟨hdocument, hdiagnostics, haborted⟩ := hrun.eq_items hready rfl
  have hp : p = ⟨e.document, e.diagnostics, e.aborted⟩ := by
    rw [hdocument, hdiagnostics, haborted]
    rfl
  have hfaults : formFaults p.diagnostics =
      ss.countP Progress.isAbandoned + (if p.aborted then 1 else 0) := by
    have heq := hrun.formFaults_eq hready
    simpa [hp, Progress.start, formFaults] using heq
  have hkeywords : ss.countP Progress.isAbandoned ≤ statementKeywords ts.words :=
    hrun.countP_isAbandoned_le hready
  refine ⟨ss, e, fun ss' e' => ⟨hrun.unique, ?_⟩, hp, fun s hs => ?_, Reader.Recursive.ends,
    fun s hs hstarts => ?_, fun s hs hother => ?_, hfaults, ?_⟩
  · rintro ⟨rfl, rfl⟩
    exact hrun
  · obtain ⟨-, -, hzero⟩ := hrun.begins hready s hs
    exact ⟨hzero, Progress.length_pass_lt _ hzero⟩
  · obtain ⟨-, ha, hzero⟩ := hrun.begins hready s hs
    cases ho : s.statement? with
    | none => exact absurd hstarts (Progress.statement?_eq_none_iff.mp ho)
    | some o =>
      cases o with
      | done v found rest =>
        exact .inl ⟨Progress.defines_of_done _ ho ha, by rw [Progress.isAbandoned, ho]⟩
      | stuck fault found rest =>
        exact .inr ⟨(Progress.fails_of_stuck _ ho hzero).1, by rw [Progress.isAbandoned, ho]⟩
  · have ho := Progress.statement?_eq_none_iff.mpr hother
    exact ⟨Progress.fails_of_none _ ho, by rw [Progress.pass_of_none _ ho]⟩
  · rw [hfaults]
    split
    all_goals omega

end SchemaLang
