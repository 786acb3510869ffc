import SchemaLang.Proofs.Text.Concat

/-! Where the tokens of a text stand. Each token is a piece of the text, its span the bytes of that
piece, the token for the end being the empty piece behind everything; and each token stands at a
later position than those before it. -/

namespace SchemaLang

/-! ### Positions -/

namespace Position

theorem lt_of_lt_of_le {a b c : Position} (hab : b.le a = false) (hbc : b.le c = true) :
    c.le a = false := by
  cases h : c.le a with
  | false => rfl
  | true => rw [le_trans hbc h] at hab; cases hab

theorem le_of_lt {a b : Position} (h : b.le a = false) : a.le b = true := by
  have htotal := le_total a b
  rwa [h, Bool.or_false] at htotal

end Position

namespace Place

theorem lt_past (p : Place) (c : Char) : (p.past c).position.le p.position = false := by
  by_cases hc : c = '\n' <;> simp [past, Position.le, hc]

theorem le_pastAll (p : Place) (cs : List Char) :
    p.position.le (p.pastAll cs).position = true := by
  induction cs generalizing p with
  | nil => exact Position.le_refl _
  | cons c cs ih => exact Position.le_trans (Position.le_of_lt (p.lt_past c)) (ih (p.past c))

/-- Behind a piece of text the position is a later one. -/
theorem lt_pastAll (p : Place) {cs : List Char} (h : cs ≠ []) :
    (p.pastAll cs).position.le p.position = false := by
  obtain ⟨c, cs, rfl⟩ := List.exists_cons_of_ne_nil h
  exact Position.lt_of_lt_of_le (p.lt_past c) ((p.past c).le_pastAll cs)

end Place

theorem Cursor.le_skipFrom (b : Bool) (p : Place) (cs : List Char) :
    p.position.le (skipFrom b p cs).place.position = true := by
  fun_induction skipFrom b p cs with
  | case1 b p => exact Position.le_refl _
  | case2 b p c cs h ih => exact Position.le_trans (Position.le_of_lt (p.lt_past c)) ih
  | case3 b p c cs h h' ih => exact Position.le_trans (Position.le_of_lt (p.lt_past c)) ih
  | case4 b p cs h h' ih => exact Position.le_trans (Position.le_of_lt (p.lt_past '#')) ih
  | case5 b p cs h h' h'' ih => exact ih
  | case6 b p c cs => exact Position.le_refl _

namespace Tokens

/-! ### Token by token -/

/-- A text without tokens has only the one for its end. -/
theorem ofCursor_of_skipTrivia_nil {c : Cursor} {p : Place} (h : c.skipTrivia = ⟨p, []⟩) :
    ofCursor c = ⟨[], ⟨.eof, "", p.locate []⟩⟩ := by
  have hnext : c.next = (⟨.eof, "", p.locate []⟩, ⟨p, []⟩) := by rw [Cursor.next, h]
  have heof : c.next.1.isEof = true := by rw [hnext]; rfl
  rw [ofCursor, dif_pos heof, hnext]

/-- Induction on the tokens of a text: the text is passed over to its end, or to a lexeme, behind
which it goes on. -/
@[elab_as_elim]
theorem ofCursor_induction {motive : Place → List Char → Prop} (p : Place) (cs : List Char)
    (ended : ∀ p us q, Passes p us q → p.position.le q.position = true →
      (Cursor.mk p us).skipTrivia = ⟨q, []⟩ → motive p us)
    (token : ∀ p us q a as, Passes p us q → p.position.le q.position = true →
      (Cursor.mk p (us ++ a :: as)).skipTrivia = ⟨q, a :: as⟩ →
      motive (q.pastAll (Lexeme.scan a as).text) (Lexeme.scan a as).rest →
      motive p (us ++ a :: as)) : motive p cs := by
  induction hn : cs.length using Nat.strongRecOn generalizing p cs with
  | _ n ih =>
    obtain ⟨us, heq, hus⟩ := Passes.skipFrom false p cs
    have hle := Cursor.le_skipFrom false p cs
    have hskip : (Cursor.mk p cs).skipTrivia = Cursor.skipFrom false p cs := rfl
    generalize Cursor.skipFrom false p cs = c at *
    obtain ⟨q, rest⟩ := c
    subst heq
    cases rest with
    | nil =>
      rw [List.append_nil] at hskip ⊢
      exact ended p us q hus hle hskip
    | cons a as =>
      refine token p us q a as hus hle hskip (ih _ ?_ _ _ rfl)
      have hlen := Lexeme.length_scan_rest_le a as
      rw [List.length_append, List.length_cons] at hn
      omega

/-! ### Pieces of the text -/

theorem exists_of_mem_ofCursor {p : Place} {cs : List Char} {t : Token}
    (h : t ∈ (ofCursor ⟨p, cs⟩).toList) : ∃ us vs q, cs = us ++ (t.text.toList ++ vs) ∧
      Passes p us q ∧ t.location = q.locate t.text.toList := by
  induction p, cs using ofCursor_induction with
  | ended p us q hus hle hskip =>
    rw [ofCursor_of_skipTrivia_nil hskip] at h
    obtain rfl := List.mem_singleton.mp h
    exact ⟨us, [], q, (List.append_nil us).symm, hus, rfl⟩
  | token p us q a as hus hle hskip ih =>
    have happ := Lexeme.scan_append a as
    rw [ofCursor_of_skipTrivia hskip] at h
    rcases List.mem_cons.mp h with rfl | h
    · refine ⟨us, (Lexeme.scan a as).rest, q, ?_, hus, ?_⟩
      · rw [String.toList_ofList, happ]
      · rw [String.toList_ofList]
    · obtain ⟨vs, ws, r, hrest, hvs, hlocation⟩ := ih h
      refine ⟨us ++ ((Lexeme.scan a as).text ++ vs), ws, r, ?_, ?_, hlocation⟩
      · rw [List.append_assoc, List.append_assoc, ← hrest, happ]
      · exact hus.append ((Passes.pastAll q _).append hvs)

/-- A token is a piece of the text, and its span tells which one. -/
theorem exists_of_mem_ofString {source : String} {t : Token}
    (h : t ∈ (ofString source).toList) : ∃ front back : String, source = front ++ t.text ++ back ∧
      t.location.span = ⟨front.utf8ByteSize, (front ++ t.text).utf8ByteSize⟩ := by
  obtain ⟨us, vs, q, hcs, ⟨hbytes, -⟩, hlocation⟩ := exists_of_mem_ofCursor h
  obtain ⟨hstop, -⟩ := Passes.pastAll q t.text.toList
  have hstart : q.offset = byteCount us := hbytes.trans (Nat.zero_add _)
  refine ⟨.ofList us, .ofList vs, ?_, ?_⟩
  · rw [← String.toList_inj, String.toList_append, String.toList_append, String.toList_ofList,
      String.toList_ofList, List.append_assoc, ← hcs]
  · rw [hlocation, Place.locate, hstop, hstart, String.utf8ByteSize_append, byteCount_ofList,
      byteCount_toList]

/-! ### Order -/

theorem le_position_of_mem {p : Place} {cs : List Char} :
    ∀ t ∈ (ofCursor ⟨p, cs⟩).toList, p.position.le t.location.position = true := by
  induction p, cs using ofCursor_induction with
  | ended p us q hus hle hskip =>
    rw [ofCursor_of_skipTrivia_nil hskip]
    exact List.forall_mem_singleton.mpr hle
  | token p us q a as hus hle hskip ih =>
    rw [ofCursor_of_skipTrivia hskip]
    refine List.forall_mem_cons.mpr ⟨hle, fun t ht => ?_⟩
    exact Position.le_trans hle (Position.le_trans (q.le_pastAll _) (ih t ht))

/-- Tokens stand at later and later positions. -/
theorem pairwise_position (p : Place) (cs : List Char) : (ofCursor ⟨p, cs⟩).toList.Pairwise
    fun t u => u.location.position.le t.location.position = false := by
  induction p, cs using ofCursor_induction with
  | ended p us q hus hle hskip =>
    rw [ofCursor_of_skipTrivia_nil hskip]
    exact List.pairwise_singleton _ _
  | token p us q a as hus hle hskip ih =>
    rw [ofCursor_of_skipTrivia hskip]
    refine List.pairwise_cons.mpr ⟨fun u hu => ?_, ih⟩
    exact Position.lt_of_lt_of_le (q.lt_pastAll (Lexeme.scan_text_ne_nil a as))
      (le_position_of_mem u hu)

end Tokens

end SchemaLang
