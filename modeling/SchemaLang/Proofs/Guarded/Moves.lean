import SchemaLang.Proofs.Guarded.Scanner

/-! How the scanner moves. Its place stands before a part of the source if the bytes in front of
that part are counted right and lines and columns are no more than the bytes. From such a place it
sees what the part begins with, and moving over a character, byte by byte, brings it to the place
behind that character. No guard fails on the way if the source has fewer than `2 ^ 31` bytes. -/

namespace SchemaLang.Scanner

open Guarded

/-- The place `p` stands in the source, with `rest` behind it. -/
structure Stands (source : List Char) (p : Place) (rest : List Char) : Prop where
  front : ∃ us, source = us ++ rest ∧ p.offset = byteCount us
  line_le : p.position.line ≤ p.offset + 1
  column_le : p.position.column ≤ p.offset + 1

/-- Every offset of the source fits in a word, with room for as many lines or columns. -/
def Fits (source : List Char) : Prop := byteCount source < 2 ^ 31

variable {source rest cs : List Char} {p q : Place} {c : Char} {α : Type}

/-- A sum that stays within the source. -/
theorem Fits.add_eq (hsize : Fits source) {a n : Nat} (h : a + n ≤ byteCount source) :
    add a n = .ok (a + n) := by
  have hword : Span.wordCount = 2 ^ 32 := rfl
  rw [Fits] at hsize
  exact add_of_lt (by omega)

namespace Stands

theorem start (source : List Char) : Stands source .start source :=
  ⟨⟨[], rfl, rfl⟩, Nat.le_refl _, Nat.le_refl _⟩

theorem offset_add (h : Stands source p rest) :
    p.offset + byteCount rest = byteCount source := by
  obtain ⟨us, rfl, hoffset⟩ := h.front
  rw [byteCount_append, hoffset]

theorem drop_bytes (h : Stands source p rest) : (bytes source).drop p.offset = bytes rest := by
  obtain ⟨us, rfl, hoffset⟩ := h.front
  rw [bytes_append, hoffset, ← length_bytes, List.drop_left]

theorem past (h : Stands source p (c :: rest)) : Stands source (p.past c) rest := by
  obtain ⟨us, rfl, hoffset⟩ := h.front
  have hpos := c.utf8Size_pos
  have hline := h.line_le
  have hcolumn := h.column_le
  refine ⟨⟨us ++ [c], by simp, ?_⟩, ?_, ?_⟩
  · rw [byteCount_append, byteCount_cons, ← hoffset]
    rfl
  · dsimp only [Place.past]
    split <;> dsimp only <;> omega
  · dsimp only [Place.past]
    split <;> dsimp only <;> omega

theorem pastAll (h : Stands source p (cs ++ rest)) : Stands source (p.pastAll cs) rest := by
  induction cs generalizing p with
  | nil => exact h
  | cons c cs ih => exact ih h.past

theorem pastByteOrderMark (h : Stands source p (byteOrderMark :: rest)) :
    Stands source p.pastByteOrderMark rest := by
  obtain ⟨us, rfl, hoffset⟩ := h.front
  have hline := h.line_le
  have hcolumn := h.column_le
  refine ⟨⟨us ++ [byteOrderMark], by simp, ?_⟩, ?_, ?_⟩
  · rw [byteCount_append, ← hoffset]
    rfl
  · dsimp only [Place.pastByteOrderMark]
    omega
  · dsimp only [Place.pastByteOrderMark]
    omega

theorem slice_pastAll (h : Stands source p (cs ++ rest)) :
    slice source p.offset (p.pastAll cs).offset = .ok cs := by
  obtain ⟨us, rfl, hoffset⟩ := h.front
  rw [slice_eq_ok_iff]
  refine ⟨us, rest, (List.append_assoc us cs rest).symm, hoffset.symm, ?_⟩
  rw [(Passes.pastAll p cs).1, byteCount_append, hoffset]

/-! ### Sums -/

/-- An offset and bytes that are behind it are within the source. -/
theorem add_offset (h : Stands source p rest) (hsize : Fits source) {n : Nat}
    (hn : n ≤ byteCount rest) : add p.offset n = .ok (p.offset + n) := by
  have hoffset := h.offset_add
  exact hsize.add_eq (by omega)

theorem add_line (h : Stands source p rest) (hsize : Fits source) {n : Nat}
    (hn : n ≤ byteCount rest) : add p.position.line n = .ok (p.position.line + n) := by
  have hword : Span.wordCount = 2 ^ 32 := rfl
  have hoffset := h.offset_add
  have hline := h.line_le
  rw [Fits] at hsize
  exact add_of_lt (by omega)

theorem add_column (h : Stands source p rest) (hsize : Fits source) {n : Nat}
    (hn : n ≤ byteCount rest) : add p.position.column n = .ok (p.position.column + n) := by
  have hword : Span.wordCount = 2 ^ 32 := rfl
  have hoffset := h.offset_add
  have hcolumn := h.column_le
  rw [Fits] at hsize
  exact add_of_lt (by omega)

/-! ### Looking -/

theorem peek (h : Stands source p rest) : peek source p = (bytes rest).head? := by
  rw [← h.drop_bytes, List.head?_drop, Scanner.peek]

theorem peek_of_isAscii (h : Stands source p (c :: rest)) (hc : IsAscii c) :
    Scanner.peek source p = some c := by
  rw [h.peek, bytes, List.flatMap_cons, charBytes_of_isAscii hc]
  rfl

theorem any_peek (h : Stands source p rest) {test : Char → Bool}
    (htest : ∀ c, test c = true → IsAscii c) :
    (Scanner.peek source p).any test = rest.head?.any test := by
  rw [h.peek, any_head?_bytes htest]

theorem peek_eq_some_iff (h : Stands source p rest) (hc : IsAscii c) :
    Scanner.peek source p = some c ↔ rest.head? = some c := by
  have hany : (Scanner.peek source p).any (· == c) = rest.head?.any (· == c) :=
    h.any_peek fun d hd => by rwa [beq_iff_eq.mp hd]
  have heq : ∀ o : Option Char, o = some c ↔ o.any (· == c) = true := by
    intro o
    cases o <;> simp
  rw [heq, hany, ← heq]

theorem peek_eq_none_iff (h : Stands source p rest) : Scanner.peek source p = none ↔ rest = [] := by
  rw [h.peek, List.head?_eq_none_iff, ← List.length_eq_zero_iff, length_bytes]
  refine ⟨eq_nil_of_byteCount, ?_⟩
  rintro rfl
  rfl

end Stands

/-- The look-ahead goes byte by byte and stops at the end of the source at the latest. -/
theorem seesBytes_eq (hsize : Fits source) {n : Nat} (hn : p.offset + n ≤ byteCount source)
    (bs : List Char) :
    seesBytes source p n bs = .ok (bs.isPrefixOf ((bytes source).drop (p.offset + n))) := by
  induction bs generalizing n with
  | nil => rfl
  | cons b bs ih =>
    rw [seesBytes, peekAt, hsize.add_eq hn, ok_bind]
    change (if _ then _ else _) = _
    by_cases hlt : p.offset + n < (bytes source).length
    · rw [List.getElem?_eq_getElem hlt, List.drop_eq_getElem_cons hlt, List.isPrefixOf]
      rw [length_bytes] at hlt
      by_cases hb : (bytes source)[p.offset + n] = b
      · rw [if_pos (congrArg some hb), ih (by omega), hb, beq_self_eq_true, Bool.true_and]
        rfl
      · rw [if_neg fun h => hb (Option.some.inj h), beq_false_of_ne (Ne.symm hb), Bool.false_and]
        rfl
    · rw [List.getElem?_eq_none (not_lt.mp hlt), List.drop_eq_nil_of_le (not_lt.mp hlt)]
      rfl

theorem Stands.sees (hsize : Fits source) (h : Stands source p rest) (cs : List Char) :
    sees source p cs = .ok (decide (cs <+: rest)) := by
  have hoffset := h.offset_add
  rw [Scanner.sees, seesBytes_eq hsize (by omega), Nat.add_zero, h.drop_bytes]
  refine congrArg Except.ok ?_
  rw [Bool.eq_iff_iff, List.isPrefixOf_iff_prefix, prefix_bytes_iff, decide_eq_true_eq]

/-! ### Moving by one byte -/

/-- The byte at a place, and those behind it. -/
theorem peek_of_drop {b : Char} {back : List Char} (h : (bytes source).drop p.offset = b :: back) :
    peek source p = some b ∧ (bytes source).drop (p.offset + 1) = back := by
  rw [peek, ← List.head?_drop, ← List.drop_drop, h]
  exact ⟨rfl, rfl⟩

/-- A byte that is passed leaves fewer behind. -/
theorem remaining_lt {b : Char} (hb : peek source p = some b) (h : p.offset < q.offset) :
    remaining source q < remaining source p := by
  obtain ⟨hlt, -⟩ := List.getElem?_eq_some_iff.mp hb
  rw [remaining, remaining]
  omega

theorem Stands.advance (hsize : Fits source) (h : Stands source p (c :: rest)) (hc : IsAscii c) :
    advance source p = .ok (p.past c) := by
  have hone := one_le_byteCount_cons c rest
  have htail : ¬ isTail c = true := by
    rw [IsAscii] at hc
    simp only [isTail, Bool.and_eq_true, decide_eq_true_eq]
    omega
  rw [Scanner.advance, h.peek_of_isAscii hc]
  dsimp only
  rw [h.add_offset hsize hone, ok_bind, Place.past, hc.utf8Size]
  by_cases hfeed : c = '\n'
  · rw [if_pos hfeed, if_pos hfeed, h.add_line hsize hone]
    rfl
  · rw [if_neg hfeed, if_neg hfeed, if_neg htail, h.add_column hsize hone]
    rfl

/-- From `p` to `q` in `n` moves over bytes of a character that is not ASCII. -/
inductive Crosses (source : List Char) : Nat → Place → Place → Prop
  | refl (p : Place) : Crosses source 0 p p
  | move {n : Nat} {p q r : Place} {b : Char} (hb : peek source p = some b) (hwide : ¬ IsAscii b)
      (hlt : p.offset < q.offset) (hmove : advance source p = .ok q) (h : Crosses source n q r) :
      Crosses source (n + 1) p r

namespace Crosses

theorem advanceBy {n : Nat} (h : Crosses source n p q) : advanceBy source n p = .ok q := by
  induction h with
  | refl p => rfl
  | move hb hwide hlt hmove h ih => rw [Scanner.advanceBy, hmove, ok_bind, ih]

/-- A loop that only moves at such bytes goes on behind the character. -/
theorem loop {n : Nat} (h : Crosses source n p q) {step : Place → Guarded (α ⊕ Place)}
    (hstep : ∀ p q b, peek source p = some b → ¬ IsAscii b → advance source p = .ok q →
      step p = .ok (.inr q)) :
    loop (remaining source) step p = loop (remaining source) step q := by
  induction h with
  | refl p => rfl
  | move hb hwide hlt hmove h ih =>
    rw [loop_of_next (hstep _ _ _ hb hwide hmove) (remaining_lt hb hlt), ih]

/-- Tail bytes are passed without a step to the side. -/
theorem of_tails (hsize : Fits source) {tails back : List Char}
    (htails : ∀ t ∈ tails, isTail t = true)
    (hdrop : (bytes source).drop p.offset = tails ++ back) :
    Crosses source tails.length p ⟨p.offset + tails.length, p.position⟩ := by
  induction tails generalizing p with
  | nil => exact .refl p
  | cons t tails ih =>
    obtain ⟨ht, htails⟩ := List.forall_mem_cons.mp htails
    obtain ⟨hpeek, hnext⟩ := peek_of_drop hdrop
    obtain ⟨hlt, -⟩ := List.getElem?_eq_some_iff.mp hpeek
    rw [length_bytes] at hlt
    have hrange := ht
    simp only [isTail, Bool.and_eq_true, decide_eq_true_eq] at hrange
    have hfeed : t ≠ '\n' := by rintro rfl; exact absurd hrange.1 (by decide)
    have hmove : advance source p = .ok ⟨p.offset + 1, p.position⟩ := by
      rw [advance, hpeek]
      dsimp only
      rw [hsize.add_eq hlt, ok_bind, if_neg hfeed, if_pos ht]
      rfl
    have hrest := ih (p := ⟨p.offset + 1, p.position⟩) htails hnext
    rw [Nat.add_assoc, Nat.add_comm 1] at hrest
    exact .move hpeek (by rw [IsAscii]; omega) (Nat.lt_succ_self _) hmove hrest

end Crosses

/-- A character of several bytes is crossed in as many moves. -/
theorem Stands.crosses (hsize : Fits source) (h : Stands source p (c :: rest))
    (hc : ¬ IsAscii c) : Crosses source c.utf8Size p (p.past c) := by
  have hone := one_le_byteCount_cons c rest
  obtain ⟨b, tails, hbytes, hb, htails⟩ := exists_charBytes hc
  have hlen : c.utf8Size = tails.length + 1 := by rw [← length_charBytes, hbytes, List.length_cons]
  have hdrop : (bytes source).drop p.offset = b :: (tails ++ bytes rest) := by
    rw [h.drop_bytes, bytes, List.flatMap_cons, hbytes]
    rfl
  obtain ⟨hpeek, hnext⟩ := peek_of_drop hdrop
  have hfeed : b ≠ '\n' := by rintro rfl; exact absurd hb (by decide)
  have hlead : ¬ isTail b = true := by
    simp only [isTail, Bool.and_eq_true, decide_eq_true_eq]
    omega
  have hmove : Scanner.advance source p =
      .ok ⟨p.offset + 1, ⟨p.position.line, p.position.column + 1⟩⟩ := by
    rw [Scanner.advance, hpeek]
    dsimp only
    rw [h.add_offset hsize hone, ok_bind, if_neg hfeed, if_neg hlead, h.add_column hsize hone]
    rfl
  have hpast : p.past c =
      ⟨p.offset + 1 + tails.length, ⟨p.position.line, p.position.column + 1⟩⟩ := by
    have hcfeed : c ≠ '\n' := by rintro rfl; exact hc (by decide)
    rw [Place.past, if_neg hcfeed, hlen, Nat.add_right_comm, Nat.add_assoc]
  rw [hlen, hpast]
  exact .move hpeek (by rw [IsAscii]; omega) (Nat.lt_succ_self _) hmove
    (.of_tails hsize htails hnext)

/-! ### What remains -/

theorem Stands.remaining_eq (h : Stands source p rest) : remaining source p = byteCount rest := by
  rw [remaining, length_bytes, ← h.offset_add, Nat.add_sub_cancel_left]

/-- The less text is behind, the fewer bytes. -/
theorem Stands.remaining_lt_of_length_lt (h : Stands source p rest) (hq : Stands source q cs)
    (hlt : cs.length < rest.length) : remaining source q < remaining source p := by
  rw [h.remaining_eq, hq.remaining_eq]
  obtain ⟨us, hus, -⟩ := h.front
  obtain ⟨vs, hvs, -⟩ := hq.front
  have hsuffix : cs <:+ rest :=
    List.suffix_of_suffix_length_le ⟨vs, hvs.symm⟩ ⟨us, hus.symm⟩ hlt.le
  obtain ⟨ws, rfl⟩ := hsuffix
  have hpos : byteCount ws ≠ 0 := by
    intro hzero
    rw [eq_nil_of_byteCount hzero] at hlt
    exact lt_irrefl _ hlt
  rw [byteCount_append]
  omega

theorem Stands.remaining_pastAll (cs : List Char) (h : Stands source p (cs ++ rest))
    (hcs : cs ≠ []) :
    remaining source (p.pastAll cs) < remaining source p := by
  have hpos := List.length_pos_iff.mpr hcs
  exact h.remaining_lt_of_length_lt h.pastAll (by rw [List.length_append]; omega)

theorem Stands.remaining_past (h : Stands source p (c :: rest)) :
    remaining source (p.past c) < remaining source p :=
  h.remaining_lt_of_length_lt h.past (Nat.lt_succ_self _)

/-! ### Moving by characters -/

theorem Stands.advanceBy (hsize : Fits source) (h : Stands source p (c :: rest)) :
    advanceBy source c.utf8Size p = .ok (p.past c) := by
  by_cases hc : IsAscii c
  · rw [hc.utf8Size, Scanner.advanceBy, h.advance hsize hc]
    rfl
  · exact (h.crosses hsize hc).advanceBy

/-- So many ASCII characters are passed in as many moves. -/
theorem Stands.advanceBy_length (hsize : Fits source) (cs : List Char)
    (h : Stands source p (cs ++ rest)) (hcs : ∀ c ∈ cs, IsAscii c) :
    Scanner.advanceBy source cs.length p = .ok (p.pastAll cs) := by
  induction cs generalizing p with
  | nil => rfl
  | cons c cs ih =>
    obtain ⟨hc, hcs⟩ := List.forall_mem_cons.mp hcs
    rw [List.length_cons, Scanner.advanceBy, h.advance hsize hc, ok_bind, ih h.past hcs]
    rfl

theorem Stands.slice_rest (h : Stands source p rest) :
    slice source p.offset (bytes source).length = .ok rest := by
  have hslice := (show Stands source p (rest ++ []) by rwa [List.append_nil]).slice_pastAll
  rwa [(Passes.pastAll p rest).1, h.offset_add, ← length_bytes] at hslice

/-- A character is moved over, and at the end of the source there is none. -/
theorem Stands.skipChar (hsize : Fits source) (h : Stands source p rest) :
    skipChar source p = .ok (rest.head?.elim p p.past) := by
  rw [Scanner.skipChar, h.slice_rest, ok_bind]
  cases rest with
  | nil =>
    have hnone := h.peek_eq_none_iff.mpr rfl
    change Scanner.advanceBy source 1 p = .ok p
    rw [Scanner.advanceBy, Scanner.advance, hnone]
    rfl
  | cons c rest => exact h.advanceBy hsize

end SchemaLang.Scanner
