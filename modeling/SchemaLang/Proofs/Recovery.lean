import SchemaLang.Proofs.Abort
import SchemaLang.Proofs.Document.Equality
import SchemaLang.Proofs.ParseAppend

/-! Statements that are given up. From the fault on, tokens are passed over as far as the first
brace that closes a group inside no other, or, if no such brace follows, to the keyword of the next
statement. So a malformed statement of which nothing stands behind its braces leaves what comes
before and behind it as it is; if something does stand behind them, reading stops there. -/

namespace SchemaLang

/-! ### Braces -/

/-- The number of opening braces. -/
def opening (ts : List Token) : Nat := ts.countP fun t => t.kind == .mark .lbrace

/-- The number of closing braces. -/
def closing (ts : List Token) : Nat := ts.countP fun t => t.kind == .mark .rbrace

/-- No brace is open behind the first `n` tokens. -/
def Outside (ts : List Token) (n : Nat) : Prop := opening (ts.take n) = closing (ts.take n)

/-- Token `n` is a brace that closes a group inside no other. -/
def ClosesGroup (ts : List Token) (n : Nat) : Prop :=
  (∃ t ∈ ts[n]?, t.kind = .mark .rbrace) ∧ Outside ts (n + 1)

/-- No brace is closed that is not open, and none stays open. -/
structure Balanced (ts : List Token) : Prop where
  closing_le : ∀ n, closing (ts.take n) ≤ opening (ts.take n)
  outside : opening ts = closing ts

instance (ts : List Token) (n : Nat) : Decidable (Outside ts n) :=
  inferInstanceAs (Decidable (_ = _))

instance (ts : List Token) (n : Nat) : Decidable (ClosesGroup ts n) :=
  inferInstanceAs (Decidable (_ ∧ _))

theorem ClosesGroup.lt {ts : List Token} {n : Nat} (h : ClosesGroup ts n) : n < ts.length := by
  obtain ⟨⟨t, ht, -⟩, -⟩ := h
  exact (List.getElem?_eq_some_iff.mp ht).1

theorem balanced_iff {ts : List Token} : Balanced ts ↔
    (∀ n < ts.length + 1, closing (ts.take n) ≤ opening (ts.take n)) ∧ Outside ts ts.length := by
  rw [Outside, List.take_length]
  constructor
  · exact fun h => ⟨fun n _ => h.closing_le n, h.outside⟩
  · rintro ⟨hle, hout⟩
    refine ⟨fun n => ?_, hout⟩
    by_cases hn : n < ts.length + 1
    · exact hle n hn
    · rw [List.take_of_length_le (by omega), hout]

instance (ts : List Token) : Decidable (Balanced ts) := decidable_of_iff _ balanced_iff.symm

theorem opening_append (ts us : List Token) : opening (ts ++ us) = opening ts + opening us :=
  List.countP_append

theorem closing_append (ts us : List Token) : closing (ts ++ us) = closing ts + closing us :=
  List.countP_append

theorem openBraces_singleton {d : Nat} {t : Token} (h : closing [t] ≤ d + opening [t]) :
    openBraces d [t] + closing [t] = d + opening [t] := by
  obtain ⟨k, text, location⟩ := t
  by_cases hl : k = .mark .lbrace
  · subst hl
    rfl
  · by_cases hr : k = .mark .rbrace
    · subst hr
      simp [opening, closing] at h
      simp [openBraces, opening, closing]
      omega
    · simp [openBraces, opening, closing, hl, hr]

/-- As long as no brace is closed that is not open, the braces that are open are those that were
opened less those that were closed. -/
theorem openBraces_add_closing {d : Nat} {ts : List Token}
    (h : ∀ n, closing (ts.take n) ≤ d + opening (ts.take n)) :
    openBraces d ts + closing ts = d + opening ts := by
  induction ts generalizing d with
  | nil => rfl
  | cons t ts ih =>
    have hfirst : openBraces d [t] + closing [t] = d + opening [t] := openBraces_singleton (h 1)
    have hcons : ∀ us, opening (t :: us) = opening [t] + opening us ∧
        closing (t :: us) = closing [t] + closing us := fun us =>
      ⟨opening_append [t] us, closing_append [t] us⟩
    have hrest : openBraces (openBraces d [t]) ts + closing ts =
        openBraces d [t] + opening ts := by
      apply ih
      intro n
      have hn := h (n + 1)
      rw [List.take_succ_cons, (hcons _).1, (hcons _).2] at hn
      omega
    rw [show openBraces d (t :: ts) = openBraces (openBraces d [t]) ts from rfl, (hcons ts).1,
      (hcons ts).2]
    omega

theorem Balanced.openBraces_take {ts : List Token} (h : Balanced ts) (n : Nat) :
    openBraces 0 (ts.take n) + closing (ts.take n) = opening (ts.take n) := by
  rw [← Nat.zero_add (opening (ts.take n))]
  apply openBraces_add_closing
  intro m
  rw [List.take_take, Nat.zero_add]
  exact h.closing_le _

theorem Balanced.openBraces_eq_zero_iff {ts : List Token} (h : Balanced ts) (n : Nat) :
    openBraces 0 (ts.take n) = 0 ↔ Outside ts n := by
  have hopen := h.openBraces_take n
  rw [Outside]
  omega

/-- A brace closes a group inside no other if no more than one was open before it. -/
theorem Balanced.closesGroup_iff {ts : List Token} (h : Balanced ts) {n : Nat}
    (hn : n < ts.length) :
    ClosesGroup ts n ↔ ts[n].kind = .mark .rbrace ∧ openBraces 0 (ts.take n) ≤ 1 := by
  have hget : ts[n]? = some ts[n] := List.getElem?_eq_getElem hn
  have htake : ts.take (n + 1) = ts.take n ++ [ts[n]] := List.take_succ_eq_append_getElem hn
  have hopen := h.openBraces_take n
  have hle := h.closing_le (n + 1)
  rw [ClosesGroup, Outside, hget]
  simp only [Option.mem_some_iff, exists_eq_left']
  rw [htake, opening_append, closing_append] at hle ⊢
  refine and_congr_right fun hr => ?_
  have hbrace : opening [ts[n]] = 0 ∧ closing [ts[n]] = 1 := by simp [opening, closing, hr]
  omega

/-- A string opens and closes nothing. -/
theorem Outside.succ_of_string {ts : List Token} {n : Nat} {t : Token} (h : Outside ts n)
    (ht : ts[n]? = some t) (hs : t.kind.isString = true) : Outside ts (n + 1) := by
  have hnone : opening [t] = 0 ∧ closing [t] = 0 := by
    constructor
    all_goals
      apply List.countP_eq_zero.mpr
      intro v hv hk
      rw [List.mem_singleton.mp hv, beq_iff_eq] at hk
      rw [hk] at hs
      cases hs
  have htake : ts.take (n + 1) = ts.take n ++ [t] := by
    rw [List.take_add_one, ht, Option.toList_some]
  rw [Outside, htake, opening_append, closing_append, hnone.1, hnone.2]
  exact h

/-! ### Passing over -/

/-- The next statement begins, if anything comes at all. -/
def Begins (ts : List Token) : Prop := ∀ t ∈ ts.head?, t.kind.startsStatement = true

instance (ts : List Token) : Decidable (Begins ts) :=
  inferInstanceAs (Decidable (∀ t ∈ ts.head?, _))

theorem Begins.nil : Begins [] := nofun

theorem Starts.begins {ts : List Token} (h : Starts ts) : Begins ts := by
  obtain ⟨t, ht, hstart⟩ := h
  intro u hu
  rw [Option.mem_unique hu ht]
  exact hstart

theorem Begins.fresh {ts : List Token} (h : Begins ts) : Fresh ts := fun t ht => .inr (h t ht)

/-- Nothing is passed over before a statement. -/
theorem Begins.skipStatement_eq {ts : List Token} (h : Begins ts) : skipStatement 0 ts = ts := by
  cases ts with
  | nil => rfl
  | cons t ts => rw [skipStatement_cons, if_pos ⟨rfl, h t rfl⟩]

/-- From token `i` on the first `e` tokens are passed over: as far as the first brace from there on
that closes a group inside no other, or all of them if there is no such brace. -/
structure PassedOver (ts : List Token) (i e : Nat) : Prop where
  le : i ≤ e
  le_length : e ≤ ts.length
  first : ∀ n, i ≤ n → n + 1 < e → ¬ ClosesGroup ts n
  last : e < ts.length → i < e ∧ ClosesGroup ts (e - 1)

theorem PassedOver.of_succ {ts : List Token} {i e : Nat} (h : PassedOver ts (i + 1) e)
    (hi : ¬ ClosesGroup ts i) : PassedOver ts i e where
  le := Nat.le_of_succ_le h.le
  le_length := h.le_length
  first := by
    intro n hn hne
    rcases Nat.eq_or_lt_of_le hn with rfl | hlt
    · exact hi
    · exact h.first n hlt hne
  last := fun he => ⟨Nat.lt_of_succ_le h.le, (h.last he).2⟩

/-- Tokens are passed over from token `i` of a balanced list on, if no statement begins from there
on outside braces. What follows the list begins a statement. -/
theorem exists_passedOver {ts : List Token} (hbal : Balanced ts) {i : Nat} (hi : i ≤ ts.length)
    (halone : ∀ n, i ≤ n → Outside ts n → ∀ t ∈ ts[n]?, t.kind.startsStatement = false) :
    ∃ e, PassedOver ts i e ∧ ∀ more, Begins more →
      skipStatement (openBraces 0 (ts.take i)) (ts.drop i ++ more) = ts.drop e ++ more := by
  induction hk : ts.length - i generalizing i with
  | zero =>
    obtain rfl : i = ts.length := by omega
    have hzero : openBraces 0 (ts.take ts.length) = 0 := by
      rw [hbal.openBraces_eq_zero_iff, Outside, List.take_length]
      exact hbal.outside
    refine ⟨ts.length, ⟨le_refl _, le_refl _, fun n _ _ => by omega, fun h => by omega⟩, ?_⟩
    intro more hmore
    rw [hzero, List.drop_length, List.nil_append, hmore.skipStatement_eq]
  | succ k ih =>
    have hlt : i < ts.length := by omega
    have hdrop : ts.drop i = ts[i] :: ts.drop (i + 1) := List.drop_eq_getElem_cons hlt
    have hkeep : ¬ (openBraces 0 (ts.take i) = 0 ∧ ts[i].kind.startsStatement = true) := by
      rintro ⟨hzero, hstarts⟩
      have hout : Outside ts i := (hbal.openBraces_eq_zero_iff i).mp hzero
      rw [halone i (le_refl i) hout ts[i] (List.getElem?_eq_getElem hlt)] at hstarts
      cases hstarts
    by_cases hclose : ClosesGroup ts i
    · -- this is the brace behind which reading goes on
      refine ⟨i + 1, ⟨Nat.le_succ i, hlt, fun n _ _ => by omega,
        fun _ => ⟨Nat.lt_succ_self i, hclose⟩⟩, fun more _ => ?_⟩
      rw [hdrop, List.cons_append, skipStatement_cons, if_neg hkeep,
        if_pos ((hbal.closesGroup_iff hlt).mp hclose)]
    · obtain ⟨e, hpassed, hskip⟩ := ih (Nat.succ_le_of_lt hlt)
        (fun n hn => halone n (Nat.le_of_succ_le hn)) (by omega)
      refine ⟨e, hpassed.of_succ hclose, fun more hmore => ?_⟩
      rw [List.take_succ_eq_append_getElem hlt, openBraces_append] at hskip
      rw [hdrop, List.cons_append, skipStatement_cons, if_neg hkeep,
        if_neg (mt (hbal.closesGroup_iff hlt).mpr hclose), hskip more hmore]

/-! ### Malformed statements -/

/-- The tokens of one statement, whether it can be read or not: the first one begins a statement,
no other one outside braces does, and the braces are balanced. -/
structure IsLone (ts : List Token) : Prop extends Balanced ts where
  starts : Starts ts
  alone : ∀ n, 0 < n → Outside ts n → ∀ t ∈ ts[n]?, t.kind.startsStatement = false

instance (t : Token) : Decidable t.IsBroken := inferInstanceAs (Decidable (_ ∧ _))

/-- Nothing stands behind a group of braces inside no other. -/
def EndsWithGroup (ts : List Token) : Prop := ∀ n, ClosesGroup ts n → n + 1 = ts.length

theorem isLone_iff {ts : List Token} : IsLone ts ↔
    Balanced ts ∧ Starts ts ∧
      ∀ n < ts.length, 0 < n → Outside ts n → ∀ t ∈ ts[n]?, t.kind.startsStatement = false := by
  constructor
  · exact fun h => ⟨h.toBalanced, h.starts, fun n _ => h.alone n⟩
  · rintro ⟨hbal, hstarts, halone⟩
    refine ⟨hbal, hstarts, fun n hn hout t ht => ?_⟩
    exact halone n (List.getElem?_eq_some_iff.mp ht).1 hn hout t ht

instance (ts : List Token) : Decidable (IsLone ts) := decidable_of_iff _ isLone_iff.symm

instance (ts : List Token) : Decidable (EndsWithGroup ts) :=
  decidable_of_iff (∀ n < ts.length, ClosesGroup ts n → n + 1 = ts.length)
    ⟨fun h n hn => h n hn.lt hn, fun h n _ => h n⟩

theorem PassedOver.eq_length {ts : List Token} {i e : Nat} (h : PassedOver ts i e)
    (hend : EndsWithGroup ts) : e = ts.length := by
  by_contra hne
  obtain ⟨hie, hclose⟩ := h.last (Nat.lt_of_le_of_ne h.le_length hne)
  have hlast := hend (e - 1) hclose
  omega

/-- The statement that `ts` begins with cannot be read on from token `i`. -/
def StuckAt (ts : List Token) (i : Nat) : Prop :=
  i < ts.length ∧ ∃ t ∈ ts.head?, ∃ kind fault found, t.kind.statement? = some kind ∧
    (Reader.definition none kind).run ts.tail = .stuck fault found (ts.drop i)

/-- The tokens at which a reader got stuck. -/
def stuckOn? {α : Type} : Outcome α → Option (List Token)
  | .done .. => none
  | .stuck _ _ rest => some rest

theorem stuckAt_of_run {ts : List Token} {i : Nat} {kind : StatementKind} (hi : i < ts.length)
    (hkind : (ts.head?.bind fun t => t.kind.statement?) = some kind)
    (hrun : stuckOn? ((Reader.definition none kind).run ts.tail) = some (ts.drop i)) :
    StuckAt ts i := by
  obtain ⟨t, ht, hk⟩ := Option.bind_eq_some_iff.mp hkind
  match hout : (Reader.definition none kind).run ts.tail, hrun with
  | .stuck fault found rest, hrun =>
    obtain rfl : rest = ts.drop i := Option.some.inj hrun
    exact ⟨hi, t, ht, kind, fault, found, hk, hout⟩

/-- A text that is one statement, in which no string breaks off, and that cannot be read on from
token `i`. -/
structure Malformed (source : String) (i : Nat) : Prop where
  unbroken : ∀ t ∈ (Tokens.ofString source).words, ¬ t.IsBroken
  lone : IsLone (Tokens.ofString source).words
  stuck : StuckAt (Tokens.ofString source).words i

/-- A reader that gets stuck before a token gets stuck there whatever follows. -/
theorem run_definition_append {description : Option String} {kind : StatementKind}
    {ts rest : List Token} {fault : Fault} {found : Diagnostics}
    (h : (Reader.definition description kind).run ts = .stuck fault found rest) (hne : rest ≠ [])
    (more : List Token) : (Reader.definition description kind).run (ts ++ more) =
      .stuck fault found (rest ++ more) := by
  have hcarry := Reader.carries_definition id more description kind ts
  rw [h] at hcarry
  have hrun := hcarry fun hnil => absurd hnil hne
  rw [Outcome.carry, show Token.place id = id from rfl, List.map_id, List.map_id,
    show Diagnostic.place id = id from rfl, List.map_id] at hrun
  exact hrun

/-- A malformed statement is given up, and reading goes on behind what is passed over. -/
theorem exists_items_append {ts : List Token} {i : Nat} (hlone : IsLone ts)
    (hstuck : StuckAt ts i) : ∃ e found, PassedOver ts i e ∧ ∀ stop more, Begins more →
      items stop (ts ++ more) = .givenUp found :: items stop (ts.drop e ++ more) := by
  obtain ⟨hi, t, ht, kind, fault, found, hkind, hrun⟩ := hstuck
  obtain ⟨us, rfl⟩ : ∃ us, ts = t :: us := by
    cases ts with
    | nil => cases ht
    | cons u us => exact ⟨us, by cases ht; rfl⟩
  have hpos : 0 < i := by
    have hlen := ((Reader.definition none kind).rest_run_suffix us).length_le
    rw [show (Reader.definition none kind).run us = .stuck fault found ((t :: us).drop i) from hrun]
      at hlen
    simp only [Outcome.rest, List.length_drop, List.length_cons] at hlen hi
    omega
  have hdrop : (t :: us).drop i = (t :: us)[i] :: (t :: us).drop (i + 1) :=
    List.drop_eq_getElem_cons hi
  have hne : (t :: us).drop i ≠ [] := hdrop ▸ List.cons_ne_nil _ _
  obtain ⟨e, hpassed, hskip⟩ := exists_passedOver hlone.toBalanced hi.le fun n hn =>
    hlone.alone n (hpos.trans_le hn)
  refine ⟨e, found ++ [⟨.malformed fault, (t :: us)[i].location⟩], hpassed,
    fun stop more hmore => ?_⟩
  have hsplit : splitDescription (t :: us ++ more) = (none, t :: (us ++ more)) := by
    obtain ⟨w, hw, -⟩ := TokenKind.statement?_eq_some_iff.mp hkind
    exact Reader.splitDescription_of_clear (by simp [hw])
  have hlonger := run_definition_append hrun hne more
  have hnext : (splitDescription (t :: us ++ more)).2 = t :: (us ++ more) := by rw [hsplit]
  rw [items_of_stuck hnext hkind (by rw [hsplit]; exact hlonger)]
  have hresume : resume (t :: (us ++ more)) ((t :: us).drop i ++ more) =
      (t :: us).drop e ++ more := by
    rw [resume, ← List.cons_append, List.length_append, List.length_append, List.length_drop,
      show (t :: us).length + more.length - ((t :: us).length - i + more.length) = i by omega,
      List.take_append_of_le_length hi.le, hskip more hmore]
  have hfound : stuckDiagnostics stop fault found ((t :: us).drop i ++ more) =
      found ++ [⟨.malformed fault, (t :: us)[i].location⟩] := by
    rw [hdrop]
    rfl
  rw [hresume, hfound]

/-! ### What is left of a malformed statement -/

/-- Behind a group of braces of a lone statement nothing begins a statement, so reading stops there,
unless all that stands there is a string. -/
theorem exists_stopped_of_closesGroup {ts : List Token} (hlone : IsLone ts) {n : Nat}
    (hclose : ClosesGroup ts n) (hlt : n + 1 < ts.length)
    (hstring : ¬ ∃ t, ts.drop (n + 1) = [t] ∧ t.kind.isString = true) (stop : Token)
    (more : List Token) : ∃ d, items stop (ts.drop (n + 1) ++ more) = [.stopped d] := by
  have hother : ∀ k t, 0 < k → Outside ts k → ts[k]? = some t → t.kind.statement? = none := by
    intro k t hk hout ht
    have hstarts := hlone.alone k hk hout t ht
    rwa [TokenKind.startsStatement, Option.isSome_eq_false_iff,
      Option.isNone_iff_eq_none] at hstarts
  obtain ⟨t, us, hdrop⟩ : ∃ t us, ts.drop (n + 1) = t :: us :=
    ⟨_, _, List.drop_eq_getElem_cons hlt⟩
  have ht : ts[n + 1]? = some t := by rw [← List.head?_drop, hdrop, List.head?_cons]
  rw [hdrop] at hstring ⊢
  cases hs : t.stringValue? with
  | none =>
    have hsplit : (splitDescription (t :: us ++ more)).2 = t :: (us ++ more) := by
      rw [List.cons_append, splitDescription, hs]
    exact ⟨_, items_of_other hsplit (hother _ t (Nat.succ_pos n) hclose.2 ht)⟩
  | some s =>
    have hkind : t.kind.isString = true := Reader.stringValue?_isSome.mp (by simp [hs])
    cases us with
    | nil => exact absurd ⟨t, rfl, hkind⟩ hstring
    | cons u us =>
      have hsplit : (splitDescription (t :: u :: us ++ more)).2 = u :: (us ++ more) := by
        rw [List.cons_append, splitDescription, hs]
        rfl
      have hout : Outside ts (n + 2) := hclose.2.succ_of_string ht hkind
      have hu : ts[n + 2]? = some u := by
        rw [← List.head?_drop, ← List.drop_drop (i := 1) (j := n + 1), hdrop]
        rfl
      exact ⟨_, items_of_other hsplit (hother _ u (Nat.succ_pos _) hout hu)⟩

/-- Reading does not stop before the end of a document of the grammar. -/
theorem any_isStop_of_mem_document {ts : List Token} (h : ts ∈ Grammar.document) (stop : Token) :
    (items stop ts).any Item.isStop = false := by
  rw [List.any_eq_false]
  intro i hi hstop
  have hform := (items_form_iff stop ts).mpr h i hi
  cases i with
  | stopped d =>
    have hd : d ∈ (Item.stopped d).found := List.mem_singleton_self d
    exact hform d hd (Diagnostic.kind_of_isFatal (found_of_mem_items hi hd).2)
  | defined d ds => cases hstop
  | givenUp ds => cases hstop

/-- Places do not matter to the grammar. -/
theorem mem_document_place {ts : List Token} (h : ts ∈ Grammar.document) (f : Location → Location) :
    ts.map (Token.place f) ∈ Grammar.document := by
  have stop : Token := ⟨.eof, "", default⟩
  rw [← items_form_iff (stop.place f)]
  rw [← items_form_iff stop] at h
  rw [items_place, List.forall_mem_map]
  intro i hi d hd
  have hfound : (i.place f).found = i.found.map (Diagnostic.place f) := by cases i <;> rfl
  rw [hfound, List.mem_map] at hd
  obtain ⟨e, he, rfl⟩ := hd
  exact h i hi e he

/-- A description may stand before a document that begins with a keyword. -/
theorem cons_mem_document {t : Token} {ts : List Token} (ht : t.kind.isString = true)
    (h : ts ∈ Grammar.document) (hstarts : Starts ts) : t :: ts ∈ Grammar.document := by
  obtain ⟨u, hu, hstart⟩ := hstarts
  obtain ⟨us, rfl⟩ := List.head?_eq_some_iff.mp hu
  obtain ⟨s, hs⟩ := Option.isSome_iff_exists.mp (Reader.stringValue?_isSome.mpr ht)
  obtain ⟨k, hk⟩ := Option.isSome_iff_exists.mp hstart
  obtain ⟨w, hw, -⟩ := TokenKind.statement?_eq_some_iff.mp hk
  have hnone : splitDescription (u :: us) = (none, u :: us) :=
    Reader.splitDescription_of_clear (by simp [hw])
  obtain ⟨v, rest, k, hsplit, hk, hrest⟩ := Grammar.split_of_mem_document h (List.cons_ne_nil u us)
  rw [hnone] at hsplit
  refine (Grammar.mem_document_iff (List.cons_ne_nil _ _)).mpr ⟨v, rest, k, ?_, hk, hrest⟩
  rw [Reader.splitDescription_cons hs]
  exact hsplit

/-! ### What stands around a malformed statement -/

section Around

variable {m b name : String} {i : Nat}

theorem Begins.place {ts : List Token} (h : Begins ts) (f : Location → Location) :
    Begins (ts.map (Token.place f)) := by
  intro t ht
  rw [List.head?_map, Option.mem_map] at ht
  obtain ⟨u, hu, rfl⟩ := ht
  exact h u hu

theorem Starts.place {ts : List Token} (h : Starts ts) (f : Location → Location) :
    Starts (ts.map (Token.place f)) := by
  obtain ⟨t, ht, hstart⟩ := h
  exact ⟨t.place f, by rw [List.head?_map, ht]; rfl, hstart⟩

/-- The rounds in which a malformed statement and the text on the lines behind it are read. -/
theorem exists_rounds_malformed (hm : Malformed m i) (name : String) :
    ∃ e found, PassedOver (Tokens.ofString m).words i e ∧
      parse m name = .ofItems name (.givenUp found ::
        items (Tokens.ofString m).stop ((Tokens.ofString m).words.drop e)) ∧
      ∀ b, Begins (Tokens.ofString b).words →
        let moved := (Tokens.ofString b).place (Location.move (behind m))
        parse (m ++ "\n" ++ b) name = .ofItems name (.givenUp found ::
          items moved.stop ((Tokens.ofString m).words.drop e ++ moved.words)) := by
  obtain ⟨e, found, hpassed, hitems⟩ := exists_items_append hm.lone hm.stuck
  refine ⟨e, found, hpassed, ?_, fun b hb => ?_⟩
  · have halone := hitems (Tokens.ofString m).stop [] Begins.nil
    rw [List.append_nil, List.append_nil] at halone
    rw [parse, Tokens.parse, halone]
  · rw [parse, Tokens.ofString_append m b hm.unbroken, Tokens.parse]
    exact congrArg _ (hitems _ _ (hb.place _))

/-- If no token of a malformed statement is left, the text on the lines behind it is read as it
would be alone. -/
theorem exists_parse_malformed (hm : Malformed m i) (name : String) :
    ∃ e found, PassedOver (Tokens.ofString m).words i e ∧
      (e = (Tokens.ofString m).words.length → parse m name = ⟨.empty name, found, false⟩ ∧
        ∀ b, Begins (Tokens.ofString b).words → parse (m ++ "\n" ++ b) name =
          (parse m name).append ((parse b name).place (Location.move (behind m)))) ∧
      ∀ b, Begins (Tokens.ofString b).words →
        let moved := (Tokens.ofString b).place (Location.move (behind m))
        parse (m ++ "\n" ++ b) name = .ofItems name (.givenUp found ::
          items moved.stop ((Tokens.ofString m).words.drop e ++ moved.words)) := by
  obtain ⟨e, found, hpassed, halone, hmore⟩ := exists_rounds_malformed hm name
  refine ⟨e, found, hpassed, fun hall => ?_, hmore⟩
  rw [hall, List.drop_length, items_nil] at halone
  have hempty : Parsed.ofItems name [.givenUp found] = ⟨.empty name, found ++ [], false⟩ := rfl
  refine ⟨by rw [halone, hempty, List.append_nil], fun b hb => ?_⟩
  have hboth := hmore b hb
  dsimp only at hboth
  rw [hall, List.drop_length, List.nil_append, Tokens.place, items_place] at hboth
  rw [hboth, halone, ← List.singleton_append, Parsed.ofItems_append, Parsed.ofItems_place]
  rfl

/-- Nothing is read before the definitions of a text. -/
theorem empty_append_parse (b name : String) :
    (Document.empty name).append ((parse b name).document.relabel .plain) =
      (parse b name).document.relabel .plain := by
  have hname : ((parse b name).document.relabel .plain).name = name :=
    Document.name_foldl_define _ _
  have hnothing := ((parse b name).document.relabel .plain).empty_append
  rwa [hname] at hnothing

/-- A malformed statement between two texts, with nothing behind its braces, is reported as if it
stood alone, and the other two are read as if it were not there. -/
theorem parse_around_malformed {a : String} (ha : (parse a name).diagnostics = [])
    (hb : (parse b name).diagnostics = []) (hbegins : Begins (Tokens.ofString b).words)
    (hm : Malformed m i) (hend : EndsWithGroup (Tokens.ofString m).words) :
    let whole := parse (a ++ "\n" ++ m ++ "\n" ++ b) name
    let without := parse (a ++ "\n" ++ b) name
    whole.aborted = false ∧ whole.document.relabel .plain = without.document.relabel .plain ∧
      (whole.document == without.document) = true ∧
      whole.diagnostics =
        (parse m name).diagnostics.map (Diagnostic.place (Location.move (behind a))) := by
  intro whole without
  obtain ⟨e, found, hpassed, hall, -⟩ := exists_parse_malformed hm name
  obtain ⟨halone, hmore⟩ := hall (hpassed.eq_length hend)
  have hfresh : Fresh (Tokens.ofString (m ++ "\n" ++ b)).words := by
    rw [Tokens.ofString_append m b hm.unbroken]
    obtain ⟨t, ht, hstarts⟩ := hm.lone.starts
    intro u hu
    rw [List.head?_append, ht] at hu
    obtain rfl : t = u := by simpa using hu
    exact .inr hstarts
  have hwhole : whole = (parse a name).append
      (((parse m name).append ((parse b name).place (Location.move (behind m)))).place
        (Location.move (behind a))) := by
    rw [← hmore b hbegins, ← parse_append ha hfresh]
    simp only [whole, String.append_assoc]
  have hwithout : without = (parse a name).append
      ((parse b name).place (Location.move (behind a))) := parse_append ha hbegins.fresh
  have hplain : whole.document.relabel .plain = without.document.relabel .plain := by
    rw [hwhole, hwithout, halone]
    simp only [Parsed.append, Parsed.place, Document.relabel_append, Document.relabel_relabel]
    exact congrArg _ (empty_append_parse b name)
  refine ⟨?_, hplain, ?_, ?_⟩
  · rw [hwhole, halone]
    simp [Parsed.append, Parsed.place, aborted_of_clean ha, aborted_of_clean hb]
  · apply Document.beq_of_plain
    rw [Document.plain_eq_relabel, Document.plain_eq_relabel, hplain]
  · rw [hwhole]
    simp [Parsed.append, Parsed.place, ha, hb]

/-- A type that breaks off in its braces. -/
theorem malformed_type : Malformed "type B { ! }" 3 ∧
    EndsWithGroup (Tokens.ofString "type B { ! }").words := by
  have hwords : (Tokens.ofString "type B { ! }").words =
      [⟨.keyword .type, "type", ⟨1, 1⟩, ⟨0, 4⟩⟩, ⟨.ident, "B", ⟨1, 6⟩, ⟨5, 6⟩⟩,
        ⟨.mark .lbrace, Mark.lbrace.text, ⟨1, 8⟩, ⟨7, 8⟩⟩, ⟨.mark .bang, "!", ⟨1, 10⟩, ⟨9, 10⟩⟩,
        ⟨.mark .rbrace, Mark.rbrace.text, ⟨1, 12⟩, ⟨11, 12⟩⟩] := by decide +kernel
  constructor
  · constructor
    all_goals rw [hwords]
    · decide
    · decide
    · apply @stuckAt_of_run _ 3 .object
      · decide
      · rfl
      · decide +kernel
  · rw [hwords]
    decide

theorem parse_around_malformed_type :
    let whole := parse ("type A" ++ "\n" ++ "type B { ! }" ++ "\n" ++ "type C") "D"
    let without := parse ("type A" ++ "\n" ++ "type C") "D"
    whole.aborted = false ∧ whole.document.relabel .plain = without.document.relabel .plain ∧
      (whole.document == without.document) = true ∧
      whole.diagnostics = (parse "type B { ! }" "D").diagnostics.map
        (Diagnostic.place (Location.move (behind "type A"))) := by
  have ha : (parse "type A" "D").diagnostics = [] := by decide +kernel
  have hb : (parse "type C" "D").diagnostics = [] := by decide +kernel
  have hbegins : Begins (Tokens.ofString "type C").words := by decide +kernel
  exact parse_around_malformed ha hb hbegins malformed_type.1 malformed_type.2

/-- A malformed statement before another text: from the fault on, tokens are passed over as far as
the first brace that closes a group inside no other, whatever the braces are for. Reading stops
there if anything of the statement is left, but for a string, and then nothing of the other text is
read. -/
theorem parse_behind_malformed (hb : (parse b name).diagnostics = [])
    (hstarts : Starts (Tokens.ofString b).words) (hm : Malformed m i) :
    let ts := (Tokens.ofString m).words
    let whole := parse (m ++ "\n" ++ b) name
    ∃ e, PassedOver ts i e ∧
      (whole.aborted = true ↔ e < ts.length ∧ ¬ ∃ t, ts.drop e = [t] ∧ t.kind.isString = true) ∧
      (whole.aborted = true → whole.document = .empty name) ∧
      (e = ts.length → whole.document.relabel .plain = (parse b name).document.relabel .plain ∧
        whole.diagnostics = (parse m name).diagnostics) := by
  intro ts whole
  obtain ⟨e, found, hpassed, hall, hmore⟩ := exists_parse_malformed hm name
  refine ⟨e, hpassed, ?_⟩
  rcases Nat.eq_or_lt_of_le hpassed.le_length with heq | hlt
  · obtain ⟨halone, hbehind⟩ := hall heq
    have hwhole : whole = (parse m name).append
        ((parse b name).place (Location.move (behind m))) := hbehind b hstarts.begins
    have haborted : whole.aborted = false := by
      rw [hwhole, halone, Parsed.append, Parsed.place, aborted_of_clean hb]
      rfl
    rw [haborted]
    refine ⟨iff_of_false Bool.false_ne_true fun h => absurd heq (Nat.ne_of_lt h.1),
      fun h => absurd h Bool.false_ne_true, fun _ => ⟨?_, ?_⟩⟩
    · rw [hwhole, halone]
      simp only [Parsed.append, Parsed.place, Document.relabel_append, Document.relabel_relabel]
      exact empty_append_parse b name
    · rw [hwhole, Parsed.append, Parsed.place, hb, List.map_nil, List.append_nil]
  · obtain ⟨hie, hclose⟩ := hpassed.last hlt
    obtain ⟨n, rfl⟩ : ∃ n, e = n + 1 := Nat.exists_eq_succ_of_ne_zero (Nat.ne_zero_of_lt hie)
    generalize hmoved : (Tokens.ofString b).place (Location.move (behind m)) = moved at hmore
    have hwhole : whole = .ofItems name
        (.givenUp found :: items moved.stop (ts.drop (n + 1) ++ moved.words)) :=
      hmoved ▸ hmore b hstarts.begins
    by_cases hstring : ∃ t, ts.drop (n + 1) = [t] ∧ t.kind.isString = true
    · -- the string describes the first definition of the other text
      obtain ⟨t, hdrop, ht⟩ := hstring
      have hdocument : t :: moved.words ∈ Grammar.document := by
        rw [← hmoved]
        exact cons_mem_document ht (mem_document_place (mem_document_of_clean hb) _)
          (hstarts.place _)
      have haborted : whole.aborted = false := by
        rw [hwhole, hdrop]
        exact any_isStop_of_mem_document hdocument _
      rw [haborted]
      exact ⟨iff_of_false Bool.false_ne_true fun h => h.2 ⟨t, hdrop, ht⟩,
        fun h => absurd h Bool.false_ne_true, fun heq => absurd heq (Nat.ne_of_lt hlt)⟩
    · have hclose : ClosesGroup ts n := hclose
      obtain ⟨d, hd⟩ :=
        exists_stopped_of_closesGroup hm.lone hclose hlt hstring moved.stop moved.words
      rw [show items moved.stop (ts.drop (n + 1) ++ moved.words) = _ from hd] at hwhole
      rw [hwhole]
      exact ⟨iff_of_true rfl ⟨hlt, hstring⟩, fun _ => rfl, fun heq => absurd heq (Nat.ne_of_lt hlt)⟩

/-- A scalar that breaks off before an object in parentheses: reading stops behind the brace that
closes the object, and the scalar on the next line is lost. -/
theorem parse_behind_malformed_object :
    let m := "scalar A @d(x: ! y: {z: 1})"
    let b := "scalar B"
    let whole := parse (m ++ "\n" ++ b) "D"
    Malformed m 7 ∧ Outside (Tokens.ofString m).words 10 ∧
      ((Tokens.ofString m).words.drop 10).take 5 ∈ Grammar.group .lbrace .rbrace Grammar.entry ∧
      (parse b "D").diagnostics = [] ∧ Starts (Tokens.ofString b).words ∧
      whole.aborted = true ∧ whole.document = .empty "D" := by
  intro m b whole
  have hwords : (Tokens.ofString m).words =
      [⟨.keyword .scalar, "scalar", ⟨1, 1⟩, ⟨0, 6⟩⟩, ⟨.ident, "A", ⟨1, 8⟩, ⟨7, 8⟩⟩,
        ⟨.mark .atSign, "@", ⟨1, 10⟩, ⟨9, 10⟩⟩, ⟨.ident, "d", ⟨1, 11⟩, ⟨10, 11⟩⟩,
        ⟨.mark .lparen, "(", ⟨1, 12⟩, ⟨11, 12⟩⟩, ⟨.ident, "x", ⟨1, 13⟩, ⟨12, 13⟩⟩,
        ⟨.mark .colon, ":", ⟨1, 14⟩, ⟨13, 14⟩⟩, ⟨.mark .bang, "!", ⟨1, 16⟩, ⟨15, 16⟩⟩,
        ⟨.ident, "y", ⟨1, 18⟩, ⟨17, 18⟩⟩, ⟨.mark .colon, ":", ⟨1, 19⟩, ⟨18, 19⟩⟩,
        ⟨.mark .lbrace, Mark.lbrace.text, ⟨1, 21⟩, ⟨20, 21⟩⟩, ⟨.ident, "z", ⟨1, 22⟩, ⟨21, 22⟩⟩,
        ⟨.mark .colon, ":", ⟨1, 23⟩, ⟨22, 23⟩⟩, ⟨.int, "1", ⟨1, 25⟩, ⟨24, 25⟩⟩,
        ⟨.mark .rbrace, Mark.rbrace.text, ⟨1, 26⟩, ⟨25, 26⟩⟩,
        ⟨.mark .rparen, ")", ⟨1, 27⟩, ⟨26, 27⟩⟩] := by decide +kernel
  have hm : Malformed m 7 := by
    constructor
    all_goals rw [hwords]
    · decide
    · decide
    · apply @stuckAt_of_run _ 7 .scalar
      · decide
      · rfl
      · decide +kernel
  have hb : (parse b "D").diagnostics = [] := by decide +kernel
  have hstarts : Starts (Tokens.ofString b).words := by decide +kernel
  obtain ⟨e, hpassed, haborted, hempty, -⟩ := parse_behind_malformed hb hstarts hm
  -- the brace that closes the object is the only one that closes a group
  have hclose : ClosesGroup (Tokens.ofString m).words 14 ∧
      ∀ n < 14, ¬ ClosesGroup (Tokens.ofString m).words n := by
    rw [hwords]
    decide
  have hlength : (Tokens.ofString m).words.length = 16 := by rw [hwords]; rfl
  have hle : e ≤ 15 := by
    by_contra hlt
    exact hpassed.first 14 (by decide) (by omega) hclose.1
  have hlt : e < (Tokens.ofString m).words.length := by omega
  have he : e = 15 := by
    by_contra hne
    obtain ⟨hpos, hlast⟩ := hpassed.last hlt
    exact hclose.2 (e - 1) (by omega) hlast
  have hstop : whole.aborted = true := by
    refine haborted.mpr ⟨hlt, ?_⟩
    rw [he, hwords]
    rintro ⟨t, ht, hstring⟩
    cases ht
    cases hstring
  refine ⟨hm, ?_, ?_, hb, hstarts, hstop, hempty hstop⟩
  all_goals rw [hwords]
  · decide
  · refine ⟨[_], ⟨_, rfl, rfl⟩, _, ⟨[_, _, _], ?_, [_], ⟨_, rfl, rfl⟩, rfl⟩, rfl⟩
    apply Language.mem_kstar.mpr
    refine ⟨[[_, _, _]], rfl, fun y hy => ?_⟩
    rw [List.mem_singleton.mp hy]
    exact ⟨[_], ⟨_, rfl, rfl⟩, _, ⟨[_], ⟨_, rfl, rfl⟩, [_], .atom ⟨_, .inl rfl, rfl⟩, rfl⟩, rfl⟩

end Around

end SchemaLang
