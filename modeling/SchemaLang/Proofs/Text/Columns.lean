import SchemaLang.Proofs.Text.Tiling

/-! Positions as they are counted. The line of a token is told by the line feeds before it, and its
column by the characters on its line before it, but for the byte order marks that are trivia by
themselves. A cursor keeps this count along trivia and tokens alike, so the tokens stand where the
text alone tells. -/

namespace SchemaLang

/-! ### Counting -/

namespace Tokens

/-- The byte belongs to one of the tokens. -/
def Covers (ts : Tokens) (offset : Nat) : Prop :=
  ∃ t ∈ ts.words, t.location.span.start ≤ offset ∧ offset < t.location.span.stop

instance (ts : Tokens) (offset : Nat) : Decidable (ts.Covers offset) :=
  inferInstanceAs (Decidable (∃ t ∈ ts.words, _))

/-- What stands behind `front` stands in a comment: since the last line feed there has been a number
sign that belongs to no token. -/
def InComment (ts : Tokens) (front : List Char) : Prop :=
  ∃ i < front.length, front[i]? = some '#' ∧ '\n' ∉ front.drop i ∧
    ¬ ts.Covers (byteCount (front.take i))

instance (ts : Tokens) (front : List Char) : Decidable (ts.InComment front) :=
  inferInstanceAs (Decidable (∃ i < front.length, _))

/-- The character behind `front` is a byte order mark outside tokens and comments. -/
def IsLooseMark (ts : Tokens) (front : List Char) (c : Char) : Prop :=
  c = byteOrderMark ∧ ¬ ts.Covers (byteCount front) ∧ ¬ ts.InComment front

instance (ts : Tokens) (front : List Char) (c : Char) : Decidable (ts.IsLooseMark front c) :=
  inferInstanceAs (Decidable (_ ∧ _))

-- decided at the one character there may be, however statements about all of them may be decided
instance (ts : Tokens) (front : List Char) (o : Option Char) :
    Decidable (∀ c ∈ o, ¬ ts.IsLooseMark front c) := Option.decidableForallMem o

/-- The characters of `front` behind its last line feed, without loose byte order marks. -/
def columns (ts : Tokens) (front : List Char) : Nat :=
  (List.range front.length).countP fun i =>
    '\n' ∉ front.drop i ∧ ∀ c ∈ front[i]?, ¬ ts.IsLooseMark (front.take i) c

/-- The position of what stands behind `front`, as lines and columns are counted from 1. -/
def positionBehind (ts : Tokens) (front : List Char) : Position :=
  ⟨1 + front.count '\n', 1 + ts.columns front⟩

/-! ### One more character -/

variable {ts : Tokens} {front : List Char} {c : Char}

/-- What stands behind a character stands in a comment if the character is in one or begins one. -/
theorem inComment_snoc : ts.InComment (front ++ [c]) ↔
    c ≠ '\n' ∧ (ts.InComment front ∨ c = '#' ∧ ¬ ts.Covers (byteCount front)) := by
  have hearlier : (∃ i < front.length, (front ++ [c])[i]? = some '#' ∧
      '\n' ∉ (front ++ [c]).drop i ∧ ¬ ts.Covers (byteCount ((front ++ [c]).take i))) ↔
      c ≠ '\n' ∧ ts.InComment front := by
    rw [InComment, ← exists_and_left]
    refine exists_congr fun i => Iff.trans (and_congr_right fun hi => ?_) and_left_comm
    rw [List.getElem?_append_left hi, List.drop_append_of_le_length hi.le,
      List.take_append_of_le_length hi.le, List.mem_append, List.mem_singleton, not_or,
      eq_comm (a := '\n')]
    tauto
  rw [InComment, List.length_append, List.length_singleton, Nat.exists_lt_succ_right, hearlier,
    List.getElem?_concat_length, List.drop_left, List.take_left, List.mem_singleton,
    Option.some_inj, eq_comm (a := '\n'), and_or_left]
  tauto

theorem columns_snoc : ts.columns (front ++ [c]) =
    if c = '\n' then 0
    else if ts.IsLooseMark front c then ts.columns front else ts.columns front + 1 := by
  have hearlier : ∀ i ∈ List.range front.length,
      (decide ('\n' ∉ (front ++ [c]).drop i ∧
        ∀ d ∈ (front ++ [c])[i]?, ¬ ts.IsLooseMark ((front ++ [c]).take i) d) = true ↔
      decide (c ≠ '\n' ∧ '\n' ∉ front.drop i ∧
        ∀ d ∈ front[i]?, ¬ ts.IsLooseMark (front.take i) d) = true) := by
    intro i hi
    have hi := List.mem_range.mp hi
    rw [decide_eq_true_iff, decide_eq_true_iff, List.getElem?_append_left hi,
      List.drop_append_of_le_length hi.le, List.take_append_of_le_length hi.le, List.mem_append,
      List.mem_singleton, not_or, eq_comm (a := '\n')]
    tauto
  rw [columns, List.length_append, List.length_singleton, List.range_succ, List.countP_append,
    List.countP_congr hearlier, List.countP_singleton, List.getElem?_concat_length,
    List.drop_left, List.take_left]
  by_cases hc : c = '\n'
  · simp [hc]
  · by_cases hloose : ts.IsLooseMark front c
    · simp [hc, hloose, columns]
    · simp [hc, hloose, columns, Ne.symm hc]

/-! ### The count that a cursor keeps -/

/-- A cursor that has passed over `front` stands at `p`, and the count is right there. -/
structure Reaches (ts : Tokens) (front : List Char) (p : Place) : Prop where
  offset : p.offset = byteCount front
  position : p.position = ts.positionBehind front

namespace Reaches

variable {p : Place}

theorem start : ts.Reaches [] .start := ⟨rfl, rfl⟩

theorem past (h : ts.Reaches front p) (hc : ¬ ts.IsLooseMark front c) :
    ts.Reaches (front ++ [c]) (p.past c) := by
  obtain ⟨hoffset, hposition⟩ := h
  constructor
  · rw [Place.past, hoffset, byteCount_append]
    simp [byteCount]
  · rw [Place.past, hposition, positionBehind, positionBehind, columns_snoc, if_neg hc,
      List.count_append, List.count_singleton]
    by_cases hfeed : c = '\n'
    · simp [hfeed, Nat.add_assoc]
    · simp [hfeed, Nat.add_assoc]

theorem pastByteOrderMark (h : ts.Reaches front p) (hc : ts.IsLooseMark front byteOrderMark) :
    ts.Reaches (front ++ [byteOrderMark]) p.pastByteOrderMark := by
  obtain ⟨hoffset, hposition⟩ := h
  have hfeed : byteOrderMark ≠ '\n' := by decide
  constructor
  · rw [Place.pastByteOrderMark, hoffset, byteCount_append]
    rfl
  · rw [Place.pastByteOrderMark, hposition, positionBehind, positionBehind, columns_snoc,
      if_neg hfeed, if_pos hc, List.count_append, List.count_singleton]
    rfl

/-- The count is right behind a token, and no comment is open there. -/
theorem pastAll {text : List Char} (h : ts.Reaches front p) (hfree : ¬ ts.InComment front)
    (hcover : ∀ o, p.offset ≤ o → o < p.offset + byteCount text → ts.Covers o) :
    ts.Reaches (front ++ text) (p.pastAll text) ∧ ¬ ts.InComment (front ++ text) := by
  induction text generalizing front p with
  | nil => rw [List.append_nil]; exact ⟨h, hfree⟩
  | cons c text ih =>
    have hsize : byteCount (c :: text) = c.utf8Size + byteCount text := rfl
    have hpos := c.utf8Size_pos
    have hc : ts.Covers (byteCount front) := by
      rw [← h.offset]
      exact hcover _ (Nat.le_refl _) (by omega)
    have hafter : ¬ ts.InComment (front ++ [c]) := by
      rw [inComment_snoc]
      rintro ⟨-, hin | ⟨-, hn⟩⟩
      · exact hfree hin
      · exact hn hc
    have hlater : ∀ o, (p.past c).offset ≤ o → o < (p.past c).offset + byteCount text →
        ts.Covers o := by
      intro o ho hlt
      have hoffset : (p.past c).offset = p.offset + c.utf8Size := rfl
      exact hcover o (by omega) (by omega)
    have hrest := ih (h.past fun hloose => hloose.2.1 hc) hafter hlater
    rwa [List.append_assoc] at hrest

end Reaches

/-- A cursor that stood behind `front` has passed over some of the text `cs` and counted it right.
If something is left, then no comment is open. -/
def Skips (ts : Tokens) (front cs : List Char) (d : Cursor) : Prop :=
  ∃ us, us ++ d.rest = cs ∧ ts.Reaches (front ++ us) d.place ∧
    (d.rest ≠ [] → ¬ ts.InComment (front ++ us))

theorem Skips.cons {cs : List Char} {d : Cursor} (h : ts.Skips (front ++ [c]) cs d) :
    ts.Skips front (c :: cs) d := by
  obtain ⟨us, heq, hreaches, hfree⟩ := h
  rw [List.append_assoc] at hreaches hfree
  exact ⟨c :: us, congrArg (c :: ·) heq, hreaches, hfree⟩

/-- Trivia are counted right, as they stand between tokens. -/
theorem Reaches.skipFrom {b : Bool} {p : Place} {cs : List Char} (h : ts.Reaches front p)
    (hb : ts.InComment front ↔ b = true)
    (hfree : ∀ o, p.offset ≤ o → o < (Cursor.skipFrom b p cs).place.offset → ¬ ts.Covers o) :
    ts.Skips front cs (Cursor.skipFrom b p cs) := by
  fun_induction Cursor.skipFrom b p cs generalizing front with
  | case1 b p =>
    refine ⟨[], rfl, ?_, fun hne => absurd rfl hne⟩
    rwa [List.append_nil]
  | case2 b p c cs hc ih =>
    obtain ⟨hin, hfeed⟩ : b = true ∧ c ≠ '\n' := by simpa using hc
    have hin : ts.InComment front := hb.mpr hin
    have hloose : ¬ ts.IsLooseMark front c := fun hloose => hloose.2.2 hin
    have hnext : ts.InComment (front ++ [c]) := inComment_snoc.mpr ⟨hfeed, .inl hin⟩
    refine (ih (h.past hloose) (iff_of_true hnext rfl) fun o ho => hfree o ?_).cons
    exact (Nat.le_add_right _ _).trans ho
  | case3 b p c cs hc hs ih =>
    have hloose : ¬ ts.IsLooseMark front c := by
      rintro ⟨rfl, -⟩
      exact absurd hs (by decide)
    have hnext : ¬ ts.InComment (front ++ [c]) := by
      rw [inComment_snoc]
      rintro ⟨hfeed, hin | ⟨rfl, -⟩⟩
      · simp [hb.mp hin, hfeed] at hc
      · exact absurd hs (by decide)
    have hopen := iff_of_false hnext Bool.false_ne_true
    refine (ih (h.past hloose) hopen fun o ho => hfree o ?_).cons
    exact (Nat.le_add_right _ _).trans ho
  | case4 b p cs hc hs ih =>
    have hlt : p.offset < (Cursor.skipFrom true (p.past '#') cs).place.offset := by
      obtain ⟨us, -, hbytes, -⟩ := Passes.skipFrom true (p.past '#') cs
      have hoffset : (p.past '#').offset = p.offset + 1 := rfl
      omega
    have hbegins : ts.InComment (front ++ ['#']) := by
      rw [inComment_snoc, ← h.offset]
      exact ⟨by decide, .inr ⟨rfl, hfree _ (Nat.le_refl _) hlt⟩⟩
    have hloose : ¬ ts.IsLooseMark front '#' := fun hloose => absurd hloose.1 (by decide)
    refine (ih (h.past hloose) (iff_of_true hbegins rfl) fun o ho => hfree o ?_).cons
    exact (Nat.le_add_right _ _).trans ho
  | case5 b p cs hc hs hn ih =>
    have hlt : p.offset < (Cursor.skipFrom false p.pastByteOrderMark cs).place.offset := by
      obtain ⟨us, -, hbytes, -⟩ := Passes.skipFrom false p.pastByteOrderMark cs
      have hoffset : p.pastByteOrderMark.offset = p.offset + 3 := rfl
      omega
    have hin : ¬ ts.InComment front := fun hin => by simp [hb.mp hin, byteOrderMark] at hc
    have hloose : ts.IsLooseMark front byteOrderMark := by
      refine ⟨rfl, ?_, hin⟩
      rw [← h.offset]
      exact hfree _ (Nat.le_refl _) hlt
    have hnext : ¬ ts.InComment (front ++ [byteOrderMark]) := by
      rw [inComment_snoc]
      rintro ⟨-, hopen | ⟨hsign, -⟩⟩
      · exact hin hopen
      · exact absurd hsign (by decide)
    have hopen := iff_of_false hnext Bool.false_ne_true
    refine (ih (h.pastByteOrderMark hloose) hopen fun o ho => hfree o ?_).cons
    exact (Nat.le_add_right _ _).trans ho
  | case6 b p c cs hc hs hn hm =>
    refine ⟨[], rfl, ?_, fun _ => ?_⟩
    all_goals rw [List.append_nil]
    · exact h
    · intro hin
      obtain rfl : c = '\n' := by simpa [hb.mp hin] using hc
      exact hs rfl

/-- Between two tokens the count is right before the second one, and no comment is open there. -/
theorem Reaches.skipTrivia {p q : Place} {us rest : List Char} (h : ts.Reaches front p)
    (hfree : ¬ ts.InComment front)
    (hskip : (Cursor.mk p (us ++ rest)).skipTrivia = ⟨q, rest⟩)
    (hnone : ∀ o, p.offset ≤ o → o < q.offset → ¬ ts.Covers o) :
    ts.Reaches (front ++ us) q ∧ (rest ≠ [] → ¬ ts.InComment (front ++ us)) := by
  have hplace : (Cursor.skipFrom false p (us ++ rest)).place = q := congrArg Cursor.place hskip
  rw [← hplace] at hnone
  have hskips : ts.Skips front (us ++ rest) (Cursor.mk p (us ++ rest)).skipTrivia :=
    h.skipFrom (iff_of_false hfree nofun) hnone
  rw [hskip] at hskips
  obtain ⟨vs, heq, hreaches, hopen⟩ := hskips
  rw [List.append_cancel_right heq] at hreaches hopen
  exact ⟨hreaches, hopen⟩

/-! ### The tokens of a source -/

/-- Tokens cover no byte before the place where they begin. -/
theorem le_of_covers {p : Place} {cs : List Char} {o : Nat} (h : (ofCursor ⟨p, cs⟩).Covers o) :
    p.offset ≤ o := by
  obtain ⟨t, ht, hstart, -⟩ := h
  exact ((tiles_ofCursor p cs).start_le t ht).trans hstart

/-- The bytes covered are those of the first token and those that later ones cover. -/
theorem covers_iff {p q : Place} {cs as : List Char} {a : Char}
    (h : (Cursor.mk p cs).skipTrivia = ⟨q, a :: as⟩) (o : Nat) :
    (ofCursor ⟨p, cs⟩).Covers o ↔
      (q.offset ≤ o ∧ o < (q.pastAll (Lexeme.scan a as).text).offset) ∨
        (ofCursor ⟨q.pastAll (Lexeme.scan a as).text, (Lexeme.scan a as).rest⟩).Covers o := by
  rw [ofCursor_of_skipTrivia h]
  simp only [Covers, List.mem_cons, exists_eq_or_imp]
  rfl

/-- Each token of a text stands where the characters before it tell. -/
theorem exists_positionBehind (p : Place) (cs : List Char) (h : ts.Reaches front p)
    (hfree : ¬ ts.InComment front)
    (hsame : ∀ o, p.offset ≤ o → (ts.Covers o ↔ (ofCursor ⟨p, cs⟩).Covers o)) :
    ∀ t ∈ (ofCursor ⟨p, cs⟩).toList, ∃ before after,
      front ++ cs = before ++ (t.text.toList ++ after) ∧
      byteCount before = t.location.span.start ∧
      t.location.position = ts.positionBehind before := by
  induction p, cs using ofCursor_induction generalizing front with
  | ended p us q hus hle hskip =>
    have hnone : ∀ o, p.offset ≤ o → o < q.offset → ¬ ts.Covers o := by
      intro o ho _
      rw [hsame o ho, ofCursor_of_skipTrivia_nil hskip]
      exact fun ⟨t, ht, _⟩ => absurd ht List.not_mem_nil
    rw [ofCursor_of_skipTrivia_nil hskip]
    rw [← List.append_nil us] at hskip
    obtain ⟨hreaches, -⟩ := h.skipTrivia hfree hskip hnone
    exact List.forall_mem_singleton.mpr ⟨front ++ us, [], (List.append_nil _).symm,
      hreaches.offset.symm, hreaches.position⟩
  | token p us q a as hus hle hskip ih =>
    obtain ⟨hbytes, -⟩ := hus
    obtain ⟨hstop, -⟩ := Passes.pastAll q (Lexeme.scan a as).text
    have hcovers := covers_iff hskip
    have hnone : ∀ o, p.offset ≤ o → o < q.offset → ¬ ts.Covers o := by
      intro o ho hlt
      rw [hsame o ho, hcovers]
      rintro (⟨hq, -⟩ | hlater)
      · omega
      · have := le_of_covers hlater
        omega
    have htoken : ∀ o, q.offset ≤ o → o < q.offset + byteCount (Lexeme.scan a as).text →
        ts.Covers o := by
      intro o ho hlt
      rw [hsame o (by omega), hcovers]
      exact .inl ⟨ho, by omega⟩
    have hlater : ∀ o, (q.pastAll (Lexeme.scan a as).text).offset ≤ o → (ts.Covers o ↔
        (ofCursor ⟨q.pastAll (Lexeme.scan a as).text, (Lexeme.scan a as).rest⟩).Covers o) := by
      intro o ho
      rw [hsame o (by omega), hcovers]
      exact or_iff_right fun hin => by omega
    obtain ⟨hbefore, hopen⟩ := h.skipTrivia hfree hskip hnone
    obtain ⟨hbehind, hclosed⟩ := hbefore.pastAll (hopen (List.cons_ne_nil a as)) htoken
    have happ := Lexeme.scan_append a as
    have hrest := ih hbehind hclosed hlater
    rw [ofCursor_of_skipTrivia hskip]
    refine List.forall_mem_cons.mpr ⟨⟨front ++ us, (Lexeme.scan a as).rest, ?_, ?_, ?_⟩, ?_⟩
    · rw [String.toList_ofList, happ, List.append_assoc]
    · exact hbefore.offset.symm
    · exact hbefore.position
    · intro t ht
      obtain ⟨before, after, htext, hspot⟩ := hrest t ht
      refine ⟨before, after, ?_, hspot⟩
      rw [← htext, List.append_assoc, List.append_assoc, happ]

end Tokens

/-! ### Order -/

theorem Position.compare_eq_lt {a b : Position} (h : b.le a = false) : a.compare b = .lt := by
  simp only [le, Bool.or_eq_false_iff, Bool.and_eq_false_iff, decide_eq_false_iff_not,
    beq_eq_false_iff_ne] at h
  rw [compare, Ordering.then_eq_lt, Nat.compare_eq_lt, Nat.compare_eq_lt, Nat.compare_eq_eq]
  omega

/-- Positions are exact. Each token of a source, the one for its end included, stands on the line
that the line feeds before it tell, and in the column that the characters on this line before it
tell, those byte order marks not counted that are trivia outside comments. So the tokens stand at
later and later positions, by line and then by column. -/
theorem Tokens.positions_ofString (source : String) :
    let ts : Tokens := ofString source
    (∀ t ∈ ts.toList, ∃ front back : String, source = front ++ t.text ++ back ∧
      t.location.span.start = front.utf8ByteSize ∧
      t.location.position = ts.positionBehind front.toList) ∧
    ts.toList.Pairwise fun t u => t.location.position.compare u.location.position = .lt := by
  intro ts
  constructor
  · intro t ht
    have hnone : ¬ ts.InComment [] := fun ⟨i, hi, _⟩ => absurd hi (Nat.not_lt_zero i)
    obtain ⟨front, back, hsource, hstart, hposition⟩ :=
      exists_positionBehind .start source.toList .start hnone (fun _ _ => Iff.rfl) t ht
    refine ⟨.ofList front, .ofList back, ?_, ?_, ?_⟩
    · rw [← String.toList_inj, String.toList_append, String.toList_append, String.toList_ofList,
        String.toList_ofList, List.append_assoc, ← hsource, List.nil_append]
    · rw [byteCount_ofList, hstart]
    · rw [String.toList_ofList, hposition]
  · exact (pairwise_position .start source.toList).imp Position.compare_eq_lt

/-- Byte order marks in a comment, between two tokens and in a string: the second one takes no
column. -/
theorem Tokens.positions_ofString_marks :
    let source := "#\uFEFF\n\uFEFF\"\uFEFFé\" b"
    let t : Token := ⟨.ident, "b", ⟨⟨2, 6⟩, ⟨16, 17⟩⟩⟩
    t ∈ (ofString source).toList ∧ ∃ front back : String, source = front ++ "b" ++ back ∧
      16 = front.utf8ByteSize ∧ ⟨2, 6⟩ = (ofString source).positionBehind front.toList := by
  intro source t
  have ht : t ∈ (ofString source).toList := by decide +kernel
  exact ⟨ht, (positions_ofString source).1 t ht⟩

end SchemaLang
