import Mathlib.Data.List.TakeWhile
import SchemaLang.Cursor
import SchemaLang.DirectiveLocation

/-! Words and numbers are read back. A lexeme depends on the text behind it only through the
character that follows, so a word or number of one text is the same lexeme in any other text
where a character follows that goes on with neither. -/

namespace SchemaLang.Lexeme

/-- No word, number or string goes on with the front of this text. -/
def Delimited (cs : List Char) : Prop :=
  ∀ c ∈ cs.head?, isNameChar c = false ∧ c ≠ '.' ∧ c ≠ '"'

theorem Delimited.nil : Delimited [] := by simp [Delimited]

theorem delimited_cons {c : Char} {cs : List Char} :
    Delimited (c :: cs) ↔ isNameChar c = false ∧ c ≠ '.' ∧ c ≠ '"' := by
  simp [Delimited]

theorem delimited_of_isSeparator {c : Char} (h : isSeparator c = true) (cs : List Char) :
    Delimited (c :: cs) := by
  rw [delimited_cons]
  simp only [isSeparator, Bool.or_eq_true, beq_iff_eq] at h
  rcases h with (((rfl | rfl) | rfl) | rfl) | rfl <;> decide

/-- A text that is one lexeme of kind `k` wherever a delimiter follows. -/
def Relexes (k : TokenKind) (w : List Char) : Prop :=
  ∃ c cs, w = c :: cs ∧ ∀ rest, Delimited rest → scan c (cs ++ rest) = ⟨k, c :: cs, rest⟩

/-- The kind of the lexeme that a text begins with. -/
def kindOf : List Char → TokenKind
  | [] => .error
  | c :: cs => (scan c cs).kind

theorem Relexes.kindOf_eq {k : TokenKind} {w : List Char} (h : Relexes k w) : kindOf w = k := by
  obtain ⟨c, cs, rfl, h⟩ := h
  have h := h [] .nil
  rw [List.append_nil] at h
  rw [kindOf, h]

/-! ### Runs of characters -/

theorem takeWhile_stop {p : Char → Bool} {cs rest : List Char} (h : ∀ c ∈ rest.head?, p c = false) :
    (cs.takeWhile p ++ rest).takeWhile p = cs.takeWhile p := by
  have hrest : rest.takeWhile p = [] := by
    cases rest with
    | nil => rfl
    | cons c rest => simp [h c rfl]
  rw [List.takeWhile_append_of_pos fun c hc => List.all_eq_true.mp List.all_takeWhile c hc, hrest,
    List.append_nil]

theorem dropWhile_stop {p : Char → Bool} {cs rest : List Char} (h : ∀ c ∈ rest.head?, p c = false) :
    (cs.takeWhile p ++ rest).dropWhile p = rest := by
  rw [List.dropWhile_append_of_pos fun c hc => List.all_eq_true.mp List.all_takeWhile c hc]
  cases rest with
  | nil => rfl
  | cons c rest => simp [h c rfl]

/-! ### Words -/

theorem isNameChar_of_isNameStart {c : Char} (h : isNameStart c = true) : isNameChar c = true := by
  simp only [isNameStart, isNameChar, Char.isAlphanum, Bool.or_eq_true] at h ⊢
  exact h.imp_left Or.inl

theorem relexes_word {c : Char} {cs : List Char} (hm : Mark.ofChar? c = none) (hq : c ≠ '"')
    (hd : ¬ (c = '-' ∨ c.isDigit = true)) (hs : isNameStart c = true) :
    Relexes (word (c :: cs)).kind (word (c :: cs)).text := by
  have htext : (word (c :: cs)).text = c :: cs.takeWhile isNameChar := by
    rw [word, List.takeWhile_cons_of_pos (isNameChar_of_isNameStart hs)]
  refine ⟨c, _, htext, fun rest hrest => ?_⟩
  have hstop : ∀ d ∈ rest.head?, isNameChar d = false := fun d hd => (hrest d hd).1
  have hcons : c :: (cs.takeWhile isNameChar ++ rest) = (c :: cs).takeWhile isNameChar ++ rest := by
    rw [List.takeWhile_cons_of_pos (isNameChar_of_isNameStart hs), List.cons_append]
  rw [scan, hm]
  dsimp only
  rw [if_neg hq, if_neg hd, if_pos hs, hcons, word, takeWhile_stop hstop, dropWhile_stop hstop,
    ← htext]
  rfl

/-! ### Numbers -/

/-- No digit comes first. -/
def NoDigit (cs : List Char) : Prop := ∀ c ∈ cs.head?, c.isDigit = false

theorem splitDigits_stable {rest : List Char} (h : NoDigit rest) (cs : List Char) :
    splitDigits ((splitDigits cs).1 ++ rest) = ((splitDigits cs).1, rest) := by
  rw [splitDigits, splitDigits, takeWhile_stop h, dropWhile_stop h]

theorem ne_of_forall_ne_cons {cs : List Char} {d : Char} (h : ∀ ds, cs = d :: ds → False) :
    ∀ c ∈ cs.head?, c ≠ d := by
  rintro c hc rfl
  obtain ⟨ds, rfl⟩ := List.head?_eq_some_iff.mp hc
  exact h ds rfl

theorem splitMinus_of_ne {cs : List Char} (h : ∀ c ∈ cs.head?, c ≠ '-') :
    splitMinus cs = ([], cs) := by
  unfold splitMinus
  split
  next => exact absurd rfl (h '-' rfl)
  next => rfl

theorem splitMinus_stable {rest : List Char} (h : ∀ c ∈ rest.head?, c ≠ '-') (cs : List Char) :
    splitMinus ((splitMinus cs).1 ++ rest) = ((splitMinus cs).1, rest) := by
  fun_cases splitMinus cs with
  | case1 cs => rfl
  | case2 hne => exact splitMinus_of_ne h

theorem splitInteger_of_ne {cs : List Char} (h : ∀ c ∈ cs.head?, c ≠ '0') :
    splitInteger cs = splitDigits cs := by
  unfold splitInteger
  split
  next => exact absurd rfl (h '0' rfl)
  next => rfl

theorem splitInteger_stable {rest : List Char} (h : NoDigit rest) (cs : List Char) :
    splitInteger ((splitInteger cs).1 ++ rest) = ((splitInteger cs).1, rest) := by
  fun_cases splitInteger cs with
  | case1 cs => rfl
  | case2 _ hne =>
    rw [splitInteger_of_ne]
    · exact splitDigits_stable h cs
    · rintro c hc rfl
      have happ := splitDigits_append cs
      cases hds : (splitDigits cs).1 with
      | nil =>
        rw [hds, List.nil_append] at hc
        exact absurd (h '0' hc) (by decide)
      | cons d ds =>
        rw [hds] at hc happ
        obtain rfl : d = '0' := by simpa using hc
        exact hne _ happ.symm

theorem splitFraction_of_ne {cs : List Char} (h : ∀ c ∈ cs.head?, c ≠ '.') :
    splitFraction cs = ([], cs) := by
  unfold splitFraction
  split
  next => exact absurd rfl (h '.' rfl)
  next => rfl

theorem splitFraction_stable {rest : List Char} (h : NoDigit rest)
    (hp : ∀ c ∈ rest.head?, c ≠ '.') (cs : List Char) :
    splitFraction ((splitFraction cs).1 ++ rest) = ((splitFraction cs).1, rest) := by
  fun_cases splitFraction cs with
  | case1 cs hds => exact splitFraction_of_ne hp
  | case2 cs hds => rw [List.cons_append, splitFraction, splitDigits_stable h, if_neg hds]
  | case3 hne => exact splitFraction_of_ne hp

theorem splitSign_of_ne {cs : List Char} (h : ∀ c ∈ cs.head?, c ≠ '+' ∧ c ≠ '-') :
    splitSign cs = ([], cs) := by
  unfold splitSign
  split
  next => exact absurd rfl (h '+' rfl).1
  next => exact absurd rfl (h '-' rfl).2
  next => rfl

theorem splitSign_stable {rest : List Char} (h : ∀ c ∈ rest.head?, c ≠ '+' ∧ c ≠ '-')
    (cs : List Char) : splitSign ((splitSign cs).1 ++ rest) = ((splitSign cs).1, rest) := by
  fun_cases splitSign cs with
  | case1 cs => rfl
  | case2 cs => rfl
  | case3 => exact splitSign_of_ne h

theorem splitSign_cases (cs : List Char) :
    (splitSign cs).1 = [] ∨ (splitSign cs).1 = ['+'] ∨ (splitSign cs).1 = ['-'] := by
  fun_cases splitSign cs with
  | case1 cs => exact .inr (.inl rfl)
  | case2 cs => exact .inr (.inr rfl)
  | case3 => exact .inl rfl

theorem splitExponent_of_ne {cs : List Char} (h : ∀ c ∈ cs.head?, c ≠ 'e' ∧ c ≠ 'E') :
    splitExponent cs = ([], cs) := by
  unfold splitExponent
  split
  next => rfl
  next c cs =>
    rw [if_neg]
    rintro (rfl | rfl)
    · exact (h _ rfl).1 rfl
    · exact (h _ rfl).2 rfl

/-- An exponent that ends in a digit has digits. -/
theorem digits_ne_nil {c : Char} {sign digits : List Char} (hc : c = 'e' ∨ c = 'E')
    (hs : sign = [] ∨ sign = ['+'] ∨ sign = ['-'])
    (h : (c :: (sign ++ digits)).getLast?.map Char.isDigit = some true) : digits ≠ [] := by
  rintro rfl
  rcases hc with rfl | rfl <;> rcases hs with rfl | rfl | rfl <;> exact absurd h (by decide)

/-- An exponent with digits is the same exponent before any text that no digit begins. -/
theorem splitExponent_stable {rest : List Char} (h : NoDigit rest)
    (he : ∀ c ∈ rest.head?, c ≠ 'e' ∧ c ≠ 'E') {cs : List Char}
    (hd : (splitExponent cs).1 = [] ∨
      ((splitExponent cs).1.getLast?.map Char.isDigit) = some true) :
    splitExponent ((splitExponent cs).1 ++ rest) = ((splitExponent cs).1, rest) := by
  revert hd
  fun_cases splitExponent cs with
  | case1 => exact fun _ => splitExponent_of_ne he
  | case2 c cs hc sign afterSign hsign digits back hdigits =>
    intro hd
    dsimp only at hd
    have hs : (splitSign cs).1 = sign := congrArg Prod.fst hsign
    have hds : (splitDigits afterSign).1 = digits := congrArg Prod.fst hdigits
    have hne : digits ≠ [] := digits_ne_nil hc (hs ▸ splitSign_cases cs) (hd.resolve_left nofun)
    obtain ⟨d, ds, rfl⟩ := List.exists_cons_of_ne_nil hne
    have hd : d.isDigit = true := by
      have := List.all_eq_true.mp List.all_takeWhile d (hds ▸ List.mem_cons_self)
      exact this
    have hfront : ∀ x ∈ (d :: (ds ++ rest)).head?, x ≠ '+' ∧ x ≠ '-' := by
      rintro x hx
      obtain rfl : d = x := by simpa using hx
      constructor
      all_goals
        rintro rfl
        exact absurd hd (by decide)
    have h1 : splitSign (sign ++ (d :: (ds ++ rest))) = (sign, d :: (ds ++ rest)) := by
      rw [← hs]
      exact splitSign_stable hfront cs
    have h2 : splitDigits (d :: (ds ++ rest)) = (d :: ds, rest) := by
      rw [← List.cons_append, ← hds]
      exact splitDigits_stable h afterSign
    rw [List.cons_append, List.append_assoc, List.cons_append, splitExponent, if_pos hc, h1]
    dsimp only
    rw [h2]
  | case3 c cs hc => exact fun _ => splitExponent_of_ne he

theorem forall_head?_append {P : Char → Prop} {front back : List Char}
    (hf : ∀ c ∈ front.head?, P c) (hb : ∀ c ∈ back.head?, P c) :
    ∀ c ∈ (front ++ back).head?, P c := by
  cases front with
  | nil => exact hb
  | cons d front => exact hf

theorem isDigit_of_mem_splitDigits {cs : List Char} :
    ∀ c ∈ (splitDigits cs).1, c.isDigit = true :=
  fun c hc => List.all_eq_true.mp List.all_takeWhile c hc

theorem isDigit_of_head?_splitInteger (cs : List Char) :
    ∀ c ∈ (splitInteger cs).1.head?, c.isDigit = true := by
  fun_cases splitInteger cs with
  | case1 cs => simp
  | case2 _ hne => exact fun c hc => isDigit_of_mem_splitDigits c (List.mem_of_mem_head? hc)

theorem eq_point_of_head?_splitFraction (cs : List Char) :
    ∀ c ∈ (splitFraction cs).1.head?, c = '.' := by
  fun_cases splitFraction cs with
  | case1 cs hds => simp
  | case2 cs hds => simp
  | case3 hne => simp

theorem eq_letter_of_head?_splitExponent (cs : List Char) :
    ∀ c ∈ (splitExponent cs).1.head?, c = 'e' ∨ c = 'E' := by
  fun_cases splitExponent cs with
  | case1 => simp
  | case2 c cs hc sign afterSign hsign digits back hdigits => simpa using hc
  | case3 c cs hc => simp

theorem Delimited.noDigit {rest : List Char} (h : Delimited rest) : NoDigit rest := by
  intro c hc
  have hn := (h c hc).1
  simp only [isNameChar, Char.isAlphanum, Bool.or_eq_false_iff] at hn
  exact hn.1.2

theorem Delimited.ne_letter {rest : List Char} (h : Delimited rest) :
    ∀ c ∈ rest.head?, c ≠ 'e' ∧ c ≠ 'E' := by
  intro c hc
  have hn := (h c hc).1
  constructor
  all_goals
    rintro rfl
    exact absurd hn (by decide)

theorem noDigit_splitExponent_append (cs : List Char) {rest : List Char} (h : NoDigit rest) :
    NoDigit ((splitExponent cs).1 ++ rest) := by
  refine forall_head?_append (fun c hc => ?_) h
  rcases eq_letter_of_head?_splitExponent cs c hc with rfl | rfl <;> decide

theorem ne_point_splitExponent_append (cs : List Char) {rest : List Char}
    (h : ∀ c ∈ rest.head?, c ≠ '.') : ∀ c ∈ ((splitExponent cs).1 ++ rest).head?, c ≠ '.' := by
  refine forall_head?_append (fun c hc => ?_) h
  rcases eq_letter_of_head?_splitExponent cs c hc with rfl | rfl <;> decide

theorem noDigit_splitFraction_append (cs : List Char) {rest : List Char} (h : NoDigit rest) :
    NoDigit ((splitFraction cs).1 ++ rest) := by
  refine forall_head?_append (fun c hc => ?_) h
  rw [eq_point_of_head?_splitFraction cs c hc]
  decide

theorem ne_minus_splitInteger_append {cs : List Char} (h : (splitInteger cs).1 ≠ [])
    (rest : List Char) : ∀ c ∈ ((splitInteger cs).1 ++ rest).head?, c ≠ '-' := by
  obtain ⟨d, ds, hd⟩ := List.exists_cons_of_ne_nil h
  rw [hd]
  rintro c hc rfl
  have hminus : '-' ∈ (splitInteger cs).1.head? := by
    rw [hd]
    exact hc
  exact absurd (isDigit_of_head?_splitInteger cs _ hminus) (by decide)

/-- A number that is no error has no exponent, or one that ends in a digit. -/
theorem exponent_of_numberKind {fraction exponent : List Char}
    (h : numberKind fraction exponent ≠ .error) :
    exponent = [] ∨ (exponent.getLast?.map Char.isDigit) = some true := by
  unfold numberKind at h
  split at h
  next he => exact .inl he
  next =>
    split at h
    next hd => exact .inr hd
    next => exact absurd rfl h

/-- A number that is no error is the same number before any delimiter. -/
theorem number_stable {cs rest : List Char} (hk : (number cs).kind ≠ .error)
    (hrest : Delimited rest) :
    number ((number cs).text ++ rest) = ⟨(number cs).kind, (number cs).text, rest⟩ := by
  generalize hm : splitMinus cs = m at *
  generalize hi : splitInteger m.2 = i at *
  generalize hf : splitFraction i.2 = f at *
  generalize he : splitExponent f.2 = e at *
  have hne : i.1 ≠ [] := by
    intro h
    refine hk ?_
    simp [number, hm, hi, h]
  have hnum : number cs = ⟨numberKind f.1 e.1, m.1 ++ i.1 ++ f.1 ++ e.1, e.2⟩ := by
    simp [number, hm, hi, hf, he, hne]
  have hexp : e.1 = [] ∨ (e.1.getLast?.map Char.isDigit) = some true :=
    exponent_of_numberKind (by rwa [hnum] at hk)
  -- what stands behind each part does not go on with it
  have hexpDigit : NoDigit (e.1 ++ rest) := he ▸ noDigit_splitExponent_append f.2 hrest.noDigit
  have hexpPoint : ∀ c ∈ (e.1 ++ rest).head?, c ≠ '.' :=
    he ▸ ne_point_splitExponent_append f.2 fun c hc => (hrest c hc).2.1
  have hfracDigit : NoDigit (f.1 ++ (e.1 ++ rest)) :=
    hf ▸ noDigit_splitFraction_append i.2 hexpDigit
  have hintMinus : ∀ c ∈ (i.1 ++ (f.1 ++ (e.1 ++ rest))).head?, c ≠ '-' := by
    rw [← hi] at hne ⊢
    exact ne_minus_splitInteger_append hne _
  have h1 := splitMinus_stable hintMinus cs
  have h2 := splitInteger_stable hfracDigit m.2
  have h3 := splitFraction_stable hexpDigit hexpPoint i.2
  have h4 := splitExponent_stable hrest.noDigit hrest.ne_letter (he ▸ hexp)
  rw [hm] at h1
  rw [hi] at h2
  rw [hf] at h3
  rw [he] at h4
  rw [hnum]
  simp only [List.append_assoc]
  simp [number, h1, h2, h3, h4, hne]

theorem relexes_number {c : Char} {cs : List Char} (hm : Mark.ofChar? c = none) (hq : c ≠ '"')
    (hd : c = '-' ∨ c.isDigit = true) (hk : (number (c :: cs)).kind ≠ .error) :
    Relexes (number (c :: cs)).kind (number (c :: cs)).text := by
  have happ := number_append (c :: cs)
  obtain ⟨d, ds, htext⟩ := List.exists_cons_of_ne_nil (number_text_ne_nil hd cs)
  obtain rfl : d = c := by
    rw [htext] at happ
    exact (List.cons.inj happ).1
  refine ⟨d, ds, htext, fun rest hrest => ?_⟩
  have hstable := number_stable hk hrest
  rw [htext, List.cons_append] at hstable
  rw [scan, hm]
  dsimp only
  rw [if_neg hq, if_pos hd, hstable]

/-! ### Any word or number -/

/-- Is this the kind of a word or a number? -/
def IsPlain (k : TokenKind) : Prop := k.isName = true ∨ k = .int ∨ k = .float

theorem not_isPlain {k : TokenKind} (h : k = .string ∨ k = .blockString ∨ k = .error) :
    ¬ IsPlain k := by
  rcases h with rfl | rfl | rfl <;> simp [IsPlain, TokenKind.isName]

theorem kind_quotedTail (cs : List Char) :
    (quotedTail cs).kind = .string ∨ (quotedTail cs).kind = .error := by
  fun_induction quotedTail cs <;> simp_all [prepend]

theorem kind_blockTail (cs : List Char) :
    (blockTail cs).kind = .blockString ∨ (blockTail cs).kind = .error := by
  fun_induction blockTail cs <;> simp_all [prepend]

theorem kind_string (cs : List Char) :
    (string cs).kind = .string ∨ (string cs).kind = .blockString ∨ (string cs).kind = .error := by
  unfold string
  split
  next cs => exact .inr (kind_blockTail cs)
  next => exact (kind_quotedTail _).imp_right .inr

/-- A word or number is the same lexeme before any delimiter. -/
theorem relexes_scan {c : Char} {cs : List Char} (h : IsPlain (scan c cs).kind) :
    Relexes (scan c cs).kind (scan c cs).text := by
  unfold scan at *
  cases hm : Mark.ofChar? c with
  | some m =>
    rw [hm] at h
    simp [IsPlain, TokenKind.isName] at h
  | none =>
    rw [hm] at h
    dsimp only at *
    split at h
    next => exact absurd h (not_isPlain (kind_string cs))
    next hq =>
      rw [if_neg hq]
      split at h
      next hd =>
        rw [if_pos hd]
        exact relexes_number hm hq hd fun he => not_isPlain (.inr (.inr he)) h
      next hd =>
        rw [if_neg hd]
        split at h
        next hs =>
          rw [if_pos hs]
          exact relexes_word hm hq hd hs
        next => exact absurd h (not_isPlain (.inr (.inr rfl)))

theorem isNameStart_plain {c : Char} (h : isNameStart c = true) :
    Mark.ofChar? c = none ∧ c ≠ '"' ∧ ¬ (c = '-' ∨ c.isDigit = true) := by
  refine ⟨?_, ?_, ?_⟩
  · cases hm : Mark.ofChar? c with
    | none => rfl
    | some m =>
      obtain rfl := Mark.char_of_ofChar? hm
      cases m <;> exact absurd h (by decide)
  · rintro rfl
    exact absurd h (by decide)
  · rintro (rfl | hd)
    · exact absurd h (by decide)
    · have hle : c.val ≤ '9'.val := of_decide_eq_true ((Bool.and_eq_true _ _).mp hd).2
      rcases (Bool.or_eq_true _ _).mp h with halpha | hunderscore
      · rcases (Bool.or_eq_true _ _).mp halpha with hupper | hlower
        · have hge : 'A'.val ≤ c.val := (of_decide_eq_true hupper).1
          exact absurd (UInt32.le_trans hge hle) (by decide)
        · have hge : 'a'.val ≤ c.val := of_decide_eq_true ((Bool.and_eq_true _ _).mp hlower).1
          exact absurd (UInt32.le_trans hge hle) (by decide)
      · obtain rfl : c = '_' := beq_iff_eq.mp hunderscore
        exact absurd hd (by decide)

/-- A text of name characters is one word before any delimiter. -/
theorem relexes_name {w : List Char} (hs : ∃ c ∈ w.head?, isNameStart c = true)
    (hall : w.all isNameChar = true) : Relexes (wordKind w) w := by
  obtain ⟨c, hc, hs⟩ := hs
  obtain ⟨cs, rfl⟩ : ∃ cs, w = c :: cs := List.head?_eq_some_iff.mp hc
  obtain ⟨hm, hq, hd⟩ := isNameStart_plain hs
  have h : Relexes (word (c :: cs)).kind (word (c :: cs)).text := relexes_word hm hq hd hs
  have htake : (c :: cs).takeWhile isNameChar = c :: cs :=
    List.takeWhile_eq_self_iff.mpr (List.all_eq_true.mp hall)
  rwa [word, htake] at h

theorem relexes_keyword (k : Keyword) : Relexes (.keyword k) k.text.toList := by
  have hkind : wordKind k.text.toList = .keyword k := by
    rw [wordKind, String.ofList_toList, Keyword.ofText?_text]
  rw [← hkind]
  apply relexes_name
  · cases k <;> exact ⟨_, rfl, by decide⟩
  · cases k <;> decide

theorem relexes_location (l : DirectiveLocation) : Relexes .ident l.text.toList := by
  have hkind : wordKind l.text.toList = .ident := by
    rw [wordKind, String.ofList_toList]
    cases l <;> decide
  rw [← hkind]
  apply relexes_name
  · cases l <;> exact ⟨_, rfl, by decide⟩
  · cases l <;> decide

/-! ### Trivia -/

/-- Trivia begin no lexeme but an error. -/
theorem not_trivia_of_kind_ne_error {c : Char} {cs : List Char} (h : (scan c cs).kind ≠ .error) :
    isSeparator c = false ∧ c ≠ '#' ∧ c ≠ byteOrderMark := by
  have herror : ∀ d : Char, Mark.ofChar? d = none → d ≠ '"' → ¬ (d = '-' ∨ d.isDigit = true) →
      isNameStart d = false → (scan d cs).kind = .error := by
    intro d hm hq hd hs
    rw [scan, hm]
    dsimp only
    rw [if_neg hq, if_neg hd, if_neg (by simp [hs])]
  refine ⟨?_, ?_, ?_⟩
  · cases hsep : isSeparator c with
    | false => rfl
    | true =>
      exfalso
      simp only [isSeparator, Bool.or_eq_true, beq_iff_eq] at hsep
      rcases hsep with (((rfl | rfl) | rfl) | rfl) | rfl
      all_goals exact h (herror _ (by decide) (by decide) (by decide) (by decide))
  · rintro rfl
    exact h (herror _ (by decide) (by decide) (by decide) (by decide))
  · rintro rfl
    exact h (herror _ (by decide) (by decide) (by decide) (by decide))

end SchemaLang.Lexeme
