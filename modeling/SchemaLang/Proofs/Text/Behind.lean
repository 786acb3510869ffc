import SchemaLang.Proofs.Text.Block
import SchemaLang.Proofs.Text.Lexeme
import SchemaLang.Proofs.Text.Quoted

/-! A text with a line feed and more text behind it. A lexeme of the text is the same lexeme
then, unless it is a string that breaks off, since no other one can take a line feed from
behind. -/

namespace SchemaLang.Lexeme

variable {cs more : List Char}

/-- The same lexeme in a longer text. -/
def before (l : Lexeme) (more : List Char) : Lexeme := { l with rest := l.rest ++ more }

/-- Nothing stands behind, or a line feed does. -/
def Feeds (more : List Char) : Prop := ∀ c ∈ more.head?, c = '\n'

/-! ### Words and numbers -/

theorem takeWhile_append_of_stop {p : Char → Bool} (h : ∀ c ∈ more.head?, p c = false) :
    (cs ++ more).takeWhile p = cs.takeWhile p := by
  induction cs with
  | nil => exact @takeWhile_stop p [] more h
  | cons c cs ih =>
    rw [List.cons_append, List.takeWhile_cons, List.takeWhile_cons, ih]

theorem dropWhile_append_of_stop {p : Char → Bool} (h : ∀ c ∈ more.head?, p c = false) :
    (cs ++ more).dropWhile p = cs.dropWhile p ++ more := by
  induction cs with
  | nil => exact @dropWhile_stop p [] more h
  | cons c cs ih =>
    rw [List.cons_append, List.dropWhile_cons, List.dropWhile_cons, ih]
    split <;> rfl

theorem Feeds.forall {P : Char → Prop} (h : Feeds more) (hP : P '\n') : ∀ c ∈ more.head?, P c :=
  fun c hc => h c hc ▸ hP

theorem word_append_more (h : Feeds more) (cs : List Char) :
    word (cs ++ more) = (word cs).before more := by
  have hstop := h.forall (P := fun c => isNameChar c = false) (by decide)
  rw [word, takeWhile_append_of_stop hstop, dropWhile_append_of_stop hstop]
  rfl

theorem splitDigits_append_more (h : Feeds more) :
    splitDigits (cs ++ more) = ((splitDigits cs).1, (splitDigits cs).2 ++ more) := by
  have hstop := h.forall (P := fun c => c.isDigit = false) (by decide)
  rw [splitDigits, takeWhile_append_of_stop hstop, dropWhile_append_of_stop hstop]
  rfl

theorem splitMinus_append_more (h : Feeds more) :
    splitMinus (cs ++ more) = ((splitMinus cs).1, (splitMinus cs).2 ++ more) := by
  fun_cases splitMinus cs with
  | case1 cs => rfl
  | case2 _ hne =>
    apply splitMinus_of_ne
    exact forall_head?_append (ne_of_forall_ne_cons hne) (h.forall (by decide))

theorem splitInteger_append_more (h : Feeds more) :
    splitInteger (cs ++ more) = ((splitInteger cs).1, (splitInteger cs).2 ++ more) := by
  fun_cases splitInteger cs with
  | case1 cs => rfl
  | case2 _ hne =>
    rw [splitInteger_of_ne, splitDigits_append_more h]
    exact forall_head?_append (ne_of_forall_ne_cons hne) (h.forall (by decide))

theorem splitFraction_append_more (h : Feeds more) :
    splitFraction (cs ++ more) = ((splitFraction cs).1, (splitFraction cs).2 ++ more) := by
  fun_cases splitFraction cs with
  | case1 cs hds => rw [List.cons_append, splitFraction, splitDigits_append_more h, if_pos hds]
  | case2 cs hds => rw [List.cons_append, splitFraction, splitDigits_append_more h, if_neg hds]
  | case3 _ hne =>
    apply splitFraction_of_ne
    exact forall_head?_append (ne_of_forall_ne_cons hne) (h.forall (by decide))

theorem splitSign_append_more (h : Feeds more) :
    splitSign (cs ++ more) = ((splitSign cs).1, (splitSign cs).2 ++ more) := by
  fun_cases splitSign cs with
  | case1 cs => rfl
  | case2 cs => rfl
  | case3 _ hp hm =>
    refine splitSign_of_ne (forall_head?_append (fun c hc => ?_) (h.forall (by decide)))
    exact ⟨ne_of_forall_ne_cons hp c hc, ne_of_forall_ne_cons hm c hc⟩

theorem splitExponent_append_more (h : Feeds more) :
    splitExponent (cs ++ more) = ((splitExponent cs).1, (splitExponent cs).2 ++ more) := by
  cases cs with
  | nil => exact splitExponent_of_ne (h.forall (by decide))
  | cons c cs =>
    rw [List.cons_append, splitExponent, splitExponent, splitSign_append_more h]
    dsimp only
    rw [splitDigits_append_more h]
    split <;> rfl

theorem number_append_more (h : Feeds more) (cs : List Char) :
    number (cs ++ more) = (number cs).before more := by
  unfold number
  simp only [splitMinus_append_more h, splitInteger_append_more h, splitFraction_append_more h,
    splitExponent_append_more h]
  split <;> rfl

/-! ### Strings -/

/-- A string that is closed has a character behind each of its backslashes. -/
theorem ne_backslash_of_quotedTail {c : Char} (hb : ∀ d ds, c = '\\' → cs = d :: ds → False)
    (h : (quotedTail cs).kind ≠ .error) : c ≠ '\\' := by
  rintro rfl
  cases cs with
  | nil => exact h rfl
  | cons d ds => exact hb d ds rfl rfl

theorem quotedTail_append_more (h : (quotedTail cs).kind ≠ .error) :
    quotedTail (cs ++ more) = (quotedTail cs).before more := by
  fun_induction quotedTail cs with
  | case1 => exact absurd rfl h
  | case2 cs => rfl
  | case3 cs => exact absurd rfl h
  | case4 c cs ih =>
    rw [List.cons_append, List.cons_append, quotedTail_escape, ih h]
    rfl
  | case5 c cs hq hn hb ih =>
    have hc : c ≠ '\\' := ne_backslash_of_quotedTail hb h
    rw [List.cons_append, quotedTail_cons ⟨hq, hn, hc⟩, ih h]
    rfl

/-- A block string that is closed is at least as long as what closes it. -/
theorem length_of_blockTail (h : (blockTail cs).kind ≠ .error) : 3 ≤ cs.length := by
  fun_induction blockTail cs with
  | case1 => exact absurd rfl h
  | case2 cs => simp
  | case3 cs ih => simp
  | case4 c cs hq hb ih => exact (ih h).trans (Nat.le_succ _)

theorem blockTail_append_more (h : (blockTail cs).kind ≠ .error) :
    blockTail (cs ++ more) = (blockTail cs).before more := by
  fun_induction blockTail cs with
  | case1 => exact absurd rfl h
  | case2 cs => rfl
  | case3 cs ih =>
    simp only [List.cons_append]
    rw [blockTail, ih h]
    rfl
  | case4 c cs hq hb ih =>
    -- the text is long enough to show that `c` begins no triple quotes, escaped or not
    obtain ⟨d, e, f, ds, rfl⟩ : ∃ d e f ds, cs = d :: e :: f :: ds := by
      have hlen : 3 ≤ cs.length := length_of_blockTail h
      rcases cs with _ | ⟨d, _ | ⟨e, _ | ⟨f, ds⟩⟩⟩
      · exact absurd hlen (by decide)
      · exact absurd hlen (by simp)
      · exact absurd hlen (by simp)
      · exact ⟨d, e, f, ds, rfl⟩
    rw [List.cons_append, blockTail, ih h]
    · rfl
    · rintro _ rfl heq
      simp only [List.cons_append, List.cons.injEq] at heq
      exact hq (f :: ds) rfl (by rw [heq.1, heq.2.1])
    · rintro _ rfl heq
      simp only [List.cons_append, List.cons.injEq] at heq
      exact hb ds rfl (by rw [heq.1, heq.2.1, heq.2.2.1])

theorem string_of_ne (h : ∀ ds, cs ≠ '"' :: '"' :: ds) :
    string cs = (quotedTail cs).prepend ['"'] := by
  unfold string
  split
  next ds => exact absurd rfl (h ds)
  next => rfl

theorem string_append_more (h : (string cs).kind ≠ .error) (hm : ∀ c ∈ more.head?, c ≠ '"') :
    string (cs ++ more) = (string cs).before more := by
  by_cases hq : ∃ ds, cs = '"' :: '"' :: ds
  · obtain ⟨ds, rfl⟩ := hq
    have hblock : blockTail (ds ++ more) = (blockTail ds).before more := blockTail_append_more h
    simp only [string, List.cons_append, hblock]
    rfl
  · rw [not_exists] at hq
    rw [string_of_ne hq] at h ⊢
    rw [string_of_ne, quotedTail_append_more h]
    · rfl
    · rintro ds heq
      rcases cs with _ | ⟨a, _ | ⟨b, cs⟩⟩
      · exact h rfl
      · rw [List.singleton_append] at heq
        exact hm '"' (by rw [(List.cons.inj heq).2]; rfl) rfl
      · simp only [List.cons_append, List.cons.injEq] at heq
        exact hq cs (by rw [heq.1, heq.2.1])

/-! ### Any lexeme -/

/-- A lexeme is the same one before a line feed, unless it is a string that breaks off. -/
theorem scan_append_more {c : Char} (h : c = '"' → (scan c cs).kind ≠ .error) (hm : Feeds more) :
    scan c (cs ++ more) = (scan c cs).before more := by
  cases hmark : Mark.ofChar? c with
  | some m => simp only [scan, hmark, before]
  | none =>
    simp only [scan, hmark] at h ⊢
    by_cases hc : c = '"'
    · simp only [if_pos hc] at h ⊢
      exact string_append_more (h hc) (hm.forall (by decide))
    · simp only [if_neg hc]
      split
      next => exact number_append_more hm (c :: cs)
      next =>
        split
        next => exact word_append_more hm (c :: cs)
        next => rfl

end SchemaLang.Lexeme
