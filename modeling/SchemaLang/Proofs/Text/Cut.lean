import SchemaLang.Proofs.Text.Concat

/-! A text that is cut off between two tokens. What stands behind a lexeme or a piece of trivia
tells where it ends, and the end of a text tells that as well. So the tokens of a text that is
cut off where a token begins are those before that token. -/

namespace SchemaLang

namespace Lexeme

variable {cs front back : List Char}

/-! ### Words and numbers -/

/-- What is taken from the front of a text stays the same if some of what is left is cut off. -/
def Local (split : List Char → List Char × List Char) : Prop :=
  ∀ cs front back, (split cs).2 = front ++ back →
    split ((split cs).1 ++ front) = ((split cs).1, front)

theorem forall_head?_of_append {P : Char → Prop} (hcs : cs = front ++ back)
    (h : ∀ c ∈ cs.head?, P c) : ∀ c ∈ front.head?, P c := by
  intro c hc
  apply h
  rw [hcs, List.head?_append, hc]
  rfl

theorem forall_head?_dropWhile (p : Char → Bool) (cs : List Char) :
    ∀ c ∈ (cs.dropWhile p).head?, p c = false := by
  induction cs with
  | nil => nofun
  | cons c cs ih =>
    rw [List.dropWhile_cons]
    split
    next => exact ih
    next hc =>
      intro d hd
      obtain rfl : c = d := Option.some.inj hd
      simpa using hc

theorem local_word (h : (word cs).rest = front ++ back) :
    word ((word cs).text ++ front) = ⟨(word cs).kind, (word cs).text, front⟩ := by
  have hstop : ∀ c ∈ front.head?, isNameChar c = false :=
    forall_head?_of_append h (forall_head?_dropWhile _ _)
  rw [word, word, takeWhile_stop hstop, dropWhile_stop hstop]

theorem local_splitDigits : Local splitDigits := fun _ _ _ h =>
  splitDigits_stable (forall_head?_of_append h (forall_head?_dropWhile _ _)) _

theorem local_splitMinus : Local splitMinus := by
  intro cs front back h
  revert h
  fun_cases splitMinus cs with
  | case1 cs => exact fun _ => rfl
  | case2 _ hne =>
    exact fun h => splitMinus_of_ne (forall_head?_of_append h (ne_of_forall_ne_cons hne))

theorem local_splitInteger : Local splitInteger := by
  intro cs front back h
  revert h
  fun_cases splitInteger cs with
  | case1 cs => exact fun _ => rfl
  | case2 _ hne =>
    intro h
    rw [splitInteger_of_ne, local_splitDigits cs front back h]
    refine @forall_head?_of_append cs _ back _ ?_ (ne_of_forall_ne_cons hne)
    rw [List.append_assoc, ← h, splitDigits_append]

theorem local_splitFraction : Local splitFraction := by
  intro cs front back h
  revert h
  fun_cases splitFraction cs with
  | case1 cs hds =>
    intro h
    cases front with
    | nil => rfl
    | cons c front =>
      obtain ⟨rfl, hcs⟩ := List.cons.inj h
      have hall : splitDigits cs = ([], cs) :=
        Prod.ext hds (by simpa [hds] using splitDigits_append cs)
      have hnone := local_splitDigits cs front back (by rw [hall]; exact hcs)
      rw [hall, List.nil_append] at hnone
      rw [List.nil_append, splitFraction, hnone, if_pos rfl]
  | case2 cs hds =>
    intro h
    rw [List.cons_append, splitFraction, local_splitDigits cs front back h, if_neg hds]
  | case3 _ hne =>
    exact fun h => splitFraction_of_ne (forall_head?_of_append h (ne_of_forall_ne_cons hne))

theorem local_splitSign : Local splitSign := by
  intro cs front back h
  revert h
  fun_cases splitSign cs with
  | case1 cs => exact fun _ => rfl
  | case2 cs => exact fun _ => rfl
  | case3 _ hp hm =>
    exact fun h => splitSign_of_ne (forall_head?_of_append h fun c hc =>
      ⟨ne_of_forall_ne_cons hp c hc, ne_of_forall_ne_cons hm c hc⟩)

theorem local_splitExponent : Local splitExponent := by
  intro cs front back h
  revert h
  fun_cases splitExponent cs with
  | case1 => 
    intro h
    rw [(List.append_eq_nil_iff.mp h.symm).1]
    rfl
  | case2 c cs hc sign afterSign hsign digits rest hdigits =>
    intro h
    have hafter : afterSign = digits ++ front ++ back := by
      have happ := splitDigits_append afterSign
      rw [hdigits, h] at happ
      rw [← happ, List.append_assoc]
    have hs := local_splitSign cs (digits ++ front) back (by rw [hsign]; exact hafter)
    have hd := local_splitDigits afterSign front back (by rw [hdigits]; exact h)
    rw [hsign] at hs
    rw [hdigits] at hd
    dsimp only at hs hd ⊢
    rw [List.cons_append, List.append_assoc, splitExponent, if_pos hc, hs]
    dsimp only
    rw [hd]
  | case3 c cs hc =>
    refine fun h => splitExponent_of_ne (forall_head?_of_append h fun d hd => ?_)
    obtain rfl : c = d := Option.some.inj hd
    exact not_or.mp hc

theorem local_number (h : (number cs).rest = front ++ back) :
    number ((number cs).text ++ front) = ⟨(number cs).kind, (number cs).text, front⟩ := by
  generalize hm : splitMinus cs = m at *
  generalize hi : splitInteger m.2 = i at *
  generalize hf : splitFraction i.2 = f at *
  generalize he : splitExponent f.2 = e at *
  have hminus := local_splitMinus cs
  have hinteger := local_splitInteger m.2
  have hfraction := local_splitFraction i.2
  have hexponent := local_splitExponent f.2 front back
  rw [hm] at hminus
  rw [hi] at hinteger
  rw [hf] at hfraction
  rw [he] at hexponent
  by_cases hne : i.1 = []
  · have hnum : number cs = ⟨.error, m.1, m.2⟩ := by simp [number, hm, hi, hne]
    rw [hnum] at h ⊢
    have hall : i.2 = m.2 := by
      have happ := splitInteger_append m.2
      rwa [hi, hne, List.nil_append] at happ
    have h1 := hminus front back h
    have h2 := hinteger front back (hall.trans h)
    rw [hne, List.nil_append] at h2
    simp [number, h1, h2]
  · have hnum : number cs = ⟨numberKind f.1 e.1, m.1 ++ i.1 ++ f.1 ++ e.1, e.2⟩ := by
      simp [number, hm, hi, hf, he, hne]
    rw [hnum] at h ⊢
    have h : e.2 = front ++ back := h
    -- each part leaves the next one and what is behind it
    have hf2 : f.2 = e.1 ++ front ++ back := by
      rw [List.append_assoc, ← h, ← he, splitExponent_append]
    have hi2 : i.2 = f.1 ++ (e.1 ++ front) ++ back := by
      rw [List.append_assoc, ← hf2, ← hf, splitFraction_append]
    have hm2 : m.2 = i.1 ++ (f.1 ++ (e.1 ++ front)) ++ back := by
      rw [List.append_assoc, ← hi2, ← hi, splitInteger_append]
    have h1 := hminus _ back hm2
    have h2 := hinteger _ back hi2
    have h3 := hfraction _ back hf2
    have h4 := hexponent h
    simp only [List.append_assoc]
    simp [number, h1, h2, h3, h4, hne]

/-! ### Strings -/

theorem local_quotedTail (h : (quotedTail cs).rest = front ++ back) :
    quotedTail ((quotedTail cs).text ++ front) =
      ⟨(quotedTail cs).kind, (quotedTail cs).text, front⟩ := by
  fun_induction quotedTail cs with
  | case1 =>
    rw [(List.append_eq_nil_iff.mp h.symm).1]
    rfl
  | case2 cs => rfl
  | case3 cs =>
    cases front with
    | nil => rfl
    | cons c front =>
      obtain ⟨rfl, -⟩ := List.cons.inj h
      rfl
  | case4 c cs ih =>
    change quotedTail ('\\' :: c :: ((quotedTail cs).text ++ front)) = _
    rw [quotedTail_escape, ih h]
    rfl
  | case5 c cs hq hn hb ih =>
    change quotedTail (c :: ((quotedTail cs).text ++ front)) = _
    by_cases hc : c = '\\'
    · subst hc
      cases cs with
      | nil =>
        rw [(List.append_eq_nil_iff.mp h.symm).1]
        rfl
      | cons d ds => exact absurd rfl (hb d ds rfl)
    · rw [quotedTail_cons ⟨hq, hn, hc⟩, ih h]
      rfl

theorem local_blockTail (h : (blockTail cs).rest = front ++ back) :
    blockTail ((blockTail cs).text ++ front) =
      ⟨(blockTail cs).kind, (blockTail cs).text, front⟩ := by
  fun_induction blockTail cs with
  | case1 =>
    rw [(List.append_eq_nil_iff.mp h.symm).1]
    rfl
  | case2 cs => rfl
  | case3 cs ih =>
    change blockTail ('\\' :: '"' :: '"' :: '"' :: ((blockTail cs).text ++ front)) = _
    rw [blockTail, ih h]
    rfl
  | case4 c cs hq hb ih =>
    change blockTail (c :: ((blockTail cs).text ++ front)) = _
    have hcs : cs = (blockTail cs).text ++ front ++ back := by
      have h : (blockTail cs).rest = front ++ back := h
      rw [List.append_assoc, ← h, blockTail_append]
    rw [blockTail, ih h]
    · rfl
    · rintro ds rfl heq
      exact hq (ds ++ back) rfl (by rw [hcs, heq]; rfl)
    · rintro ds rfl heq
      exact hb (ds ++ back) rfl (by rw [hcs, heq]; rfl)

theorem local_string (h : (string cs).rest = front ++ back) :
    string ((string cs).text.tail ++ front) = ⟨(string cs).kind, (string cs).text, front⟩ := by
  by_cases hq : ∃ ds, cs = '"' :: '"' :: ds
  · obtain ⟨ds, rfl⟩ := hq
    change string ('"' :: '"' :: ((blockTail ds).text ++ front)) = _
    rw [string, @local_blockTail ds _ back h]
    rfl
  · rw [not_exists] at hq
    have hstring := string_of_ne hq
    rw [hstring] at h ⊢
    have hcs : cs = (quotedTail cs).text ++ front ++ back := by
      have h : (quotedTail cs).rest = front ++ back := h
      rw [List.append_assoc, ← h, quotedTail_append]
    change string ((quotedTail cs).text ++ front) = _
    rw [string_of_ne, @local_quotedTail _ _ back h]
    · rfl
    · intro ds heq
      exact hq (ds ++ back) (by rw [hcs, heq]; rfl)

/-! ### Any lexeme -/

theorem cons_tail_of_append {c : Char} {text rest : List Char} (h : text ++ rest = c :: cs)
    (hne : text ≠ []) : c :: text.tail = text := by
  obtain ⟨d, ds, rfl⟩ := List.exists_cons_of_ne_nil hne
  rw [(List.cons.inj h).1, List.tail_cons]

/-- A lexeme stays the same if some of the text behind it is cut off. -/
theorem local_scan {c : Char} (h : (scan c cs).rest = front ++ back) :
    scan c ((scan c cs).text.tail ++ front) = ⟨(scan c cs).kind, (scan c cs).text, front⟩ := by
  have htext := cons_tail_of_append (scan_append c cs) (scan_text_ne_nil c cs)
  cases hmark : Mark.ofChar? c with
  | some m => simp only [scan, hmark, List.tail_cons, List.nil_append]
  | none =>
    simp only [scan, hmark] at h htext ⊢
    by_cases hc : c = '"'
    · simp only [if_pos hc] at h ⊢
      exact local_string h
    · simp only [if_neg hc] at h htext ⊢
      by_cases hd : c = '-' ∨ c.isDigit = true
      · simp only [if_pos hd] at h htext ⊢
        rw [← List.cons_append, htext, local_number h]
      · simp only [if_neg hd] at h htext ⊢
        by_cases hs : isNameStart c = true
        · simp only [if_pos hs] at h htext ⊢
          rw [← List.cons_append, htext, local_word h]
        · simp only [if_neg hs, List.tail_cons, List.nil_append]

end Lexeme

/-! ### Tokens -/

/-- Before a character that is no trivia nothing is passed over, whatever follows it. -/
theorem Cursor.skipFrom_stays {b : Bool} {p : Place} {cs ds : List Char}
    (h : (skipFrom b p cs).rest = cs) (hds : ∀ c ∈ ds.head?, c ∈ cs.head?) :
    skipFrom b p ds = ⟨p, ds⟩ := by
  cases ds with
  | nil => rfl
  | cons c ds =>
    obtain ⟨cs, rfl⟩ := List.head?_eq_some_iff.mp (hds c rfl)
    have hlonger : ∀ b q, (skipFrom b q cs).rest ≠ c :: cs := by
      intro b q heq
      have hle := length_skipFrom_le b q cs
      rw [heq] at hle
      exact Nat.not_succ_le_self _ hle
    rw [skipFrom] at h ⊢
    split_ifs at h ⊢
    all_goals first
      | exact absurd h (hlonger _ _)
      | rfl

/-- Trivia before a text are the same trivia if some of that text is cut off. -/
theorem Cursor.skipFrom_cut {b : Bool} {p : Place} {us front back : List Char}
    (h : (skipFrom b p (us ++ (front ++ back))).rest = front ++ back) :
    skipFrom b p (us ++ front) = ⟨(skipFrom b p (us ++ (front ++ back))).place, front⟩ := by
  induction us generalizing b p with
  | nil =>
    have hwhole : skipFrom b p (front ++ back) = ⟨p, front ++ back⟩ := skipFrom_stays h fun _ => id
    have hfront : skipFrom b p front = ⟨p, front⟩ := by
      apply skipFrom_stays h
      intro c hc
      rw [List.nil_append, List.head?_append, hc]
      rfl
    rw [List.nil_append, List.nil_append, hwhole, hfront]
  | cons u us ih =>
    rw [List.cons_append, skipFrom] at h
    rw [List.cons_append, List.cons_append, skipFrom, skipFrom]
    split_ifs at h ⊢
    · exact ih h
    · exact ih h
    · exact ih h
    · exact ih h
    · have hlen := congrArg List.length h
      simp only [List.length_cons, List.length_append] at hlen
      omega

/-- The trivia that a text begins with, and what is behind them. They are the same if some of what
is behind them is cut off. -/
theorem Cursor.exists_skipFrom (p : Place) (cs : List Char) : ∃ us q rest, us ++ rest = cs ∧
    Passes p us q ∧ (Cursor.mk p cs).skipTrivia = ⟨q, rest⟩ ∧ ∀ front back, rest = front ++ back →
      (Cursor.mk p (us ++ front)).skipTrivia = ⟨q, front⟩ := by
  obtain ⟨us, heq, hus⟩ := Passes.skipFrom false p cs
  refine ⟨us, _, _, heq, hus, rfl, fun front back hrest => ?_⟩
  have hcs : cs = us ++ (front ++ back) := by rw [← heq, hrest]
  change skipFrom false p (us ++ front) = _
  rw [hcs] at hrest ⊢
  exact skipFrom_cut hrest

/-- The text before a token, and the tokens of that text alone. -/
theorem Tokens.ofCursor_cut {p : Place} {cs : List Char} {read more : List Token} {t : Token}
    (h : (ofCursor ⟨p, cs⟩).words = read ++ t :: more) :
    ∃ front back q, cs = front ++ back ∧ Passes p front q ∧ t.location.span.start = q.offset ∧
      (ofCursor ⟨p, front⟩).words = read := by
  induction read generalizing p cs with
  | nil =>
    obtain ⟨us, q, rest, rfl, hus, hskip, hcut⟩ := Cursor.exists_skipFrom p cs
    cases rest with
    | nil =>
      rw [words_of_skipTrivia_nil hskip] at h
      cases h
    | cons a as =>
      rw [ofCursor_of_skipTrivia hskip] at h
      obtain ⟨rfl, -⟩ := List.cons.inj h
      refine ⟨us, a :: as, q, rfl, hus, rfl, ?_⟩
      have hnil := hcut [] (a :: as) rfl
      rw [List.append_nil] at hnil
      exact words_of_skipTrivia_nil hnil
  | cons r read ih =>
    obtain ⟨us, q, rest, rfl, hus, hskip, hcut⟩ := Cursor.exists_skipFrom p cs
    cases rest with
    | nil =>
      rw [words_of_skipTrivia_nil hskip] at h
      cases h
    | cons a as =>
      rw [ofCursor_of_skipTrivia hskip] at h
      obtain ⟨rfl, hread⟩ := List.cons.inj h
      obtain ⟨front, back, q', hrest, hpass, hstart, hwords⟩ := ih hread
      have hscan := Lexeme.local_scan hrest
      have happ := Lexeme.scan_append a as
      have htext := Lexeme.cons_tail_of_append happ (Lexeme.scan_text_ne_nil a as)
      generalize Lexeme.scan a as = l at *
      have has : a :: as = a :: (l.text.tail ++ front) ++ back := by
        rw [← List.cons_append, htext, List.append_assoc, ← hrest, happ]
      refine ⟨us ++ a :: (l.text.tail ++ front), back, q', ?_, ?_, hstart, ?_⟩
      · rw [List.append_assoc, ← has]
      · rw [← List.cons_append, htext]
        exact hus.append ((Passes.pastAll q _).append hpass)
      · rw [ofCursor_of_skipTrivia (hcut _ back has), hscan]
        exact congrArg _ hwords

theorem Tokens.ofString_cut {source : String} {read more : List Token} {t : Token}
    (h : (ofString source).words = read ++ t :: more) :
    ∃ front back : String, source = front ++ back ∧
      front.utf8ByteSize = t.location.span.start ∧ (ofString front).words = read := by
  obtain ⟨front, back, q, htext, ⟨hbytes, -⟩, hstart, hwords⟩ := ofCursor_cut h
  refine ⟨.ofList front, .ofList back, ?_, ?_, ?_⟩
  · rw [← String.ofList_append, ← htext, String.ofList_toList]
  · rw [byteCount_ofList, hstart, hbytes]
    exact (Nat.zero_add _).symm
  · rw [ofString, Cursor.ofString, String.toList_ofList]
    exact hwords

end SchemaLang
