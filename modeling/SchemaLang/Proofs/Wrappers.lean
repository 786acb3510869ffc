import SchemaLang.Proofs.Document.Contents
import SchemaLang.Proofs.Reader.Printed

/-! References to types as they are written. The last character that is written tells the outermost
wrapper, so what is written tells name and wrappers. If nothing is put under the wrapper that says
"never null" twice, then reading what is written gives name and wrappers back, and nothing else is
ever read. -/

namespace SchemaLang

open Reader

/-- A word of letters and digits is a name. -/
theorem isName_of_mem_name {s : String} (h : s.toList ∈ Lexicon.name) : IsName s := by
  obtain ⟨hstart, hall⟩ := Lexicon.mem_name.mp h
  refine ⟨_, ?_, Lexeme.relexes_name hstart hall⟩
  unfold Lexeme.wordKind
  split <;> rfl

namespace TypeRef

/-! ### What is written -/

/-- The written form, character by character. -/
def chars (r : TypeRef) : List Char := r.pieces.flatMap Piece.text

theorem chars_of_nil {r : TypeRef} (h : r.wrappers = []) : r.chars = r.name.toList := by
  simp [chars, pieces, h, Piece.text]

theorem chars_list (r : TypeRef) : (r.wrap .list).chars = '[' :: (r.chars ++ [']']) := by
  simp [chars, pieces_wrap, Wrapper.around, Piece.text, Mark.char]

theorem chars_nonNull (r : TypeRef) : (r.wrap .nonNull).chars = r.chars ++ ['!'] := by
  simp [chars, pieces_wrap, Wrapper.around, Piece.text, Mark.char]

theorem text_eq_iff {a b : TypeRef} : a.text = b.text ↔ a.chars = b.chars := by
  rw [text, text, Piece.render, Piece.render, String.ofList_inj]
  rfl

/-- The last character tells the outermost wrapper. -/
theorem getLast?_chars_wrap (r : TypeRef) (w : Wrapper) :
    (r.wrap w).chars.getLast? = some (match w with | .list => ']' | .nonNull => '!') := by
  cases w with
  | list => rw [chars_list, ← List.cons_append, List.getLast?_concat]
  | nonNull => rw [chars_nonNull, List.getLast?_concat]

theorem chars_wrap_inj {a b : TypeRef} {v w : Wrapper} (h : (a.wrap v).chars = (b.wrap w).chars) :
    v = w ∧ a.chars = b.chars := by
  have hlast := congrArg List.getLast? h
  rw [getLast?_chars_wrap, getLast?_chars_wrap] at hlast
  cases v with
  | list =>
    cases w with
    | list =>
      rw [chars_list, chars_list] at h
      exact ⟨rfl, List.append_cancel_right (List.cons.inj h).2⟩
    | nonNull => exact absurd hlast (by decide)
  | nonNull =>
    cases w with
    | list => exact absurd hlast (by decide)
    | nonNull =>
      rw [chars_nonNull, chars_nonNull] at h
      exact ⟨rfl, List.append_cancel_right h⟩

/-- A bare name does not end as a wrapper does. -/
theorem name_ne_chars_wrap {s : String} (hs : s.toList ∈ Lexicon.name) (r : TypeRef) (w : Wrapper) :
    s.toList ≠ (r.wrap w).chars := by
  intro h
  have hlast := r.getLast?_chars_wrap w
  rw [← h] at hlast
  have hchar := List.all_eq_true.mp (Lexicon.mem_name.mp hs).2 _ (List.mem_of_getLast? hlast)
  cases w <;> exact absurd hchar (by decide)

/-- What is written tells the name and the wrappers. -/
theorem eq_of_chars_eq {a b : TypeRef} (ha : a.name.toList ∈ Lexicon.name)
    (hb : b.name.toList ∈ Lexicon.name) (h : a.chars = b.chars) :
    a.name = b.name ∧ a.wrappers = b.wrappers := by
  induction hn : a.wrappers.length generalizing a b with
  | zero =>
    have hnil := List.length_eq_zero_iff.mp hn
    rw [chars_of_nil hnil] at h
    rcases b.wrappers_cases with hbare | ⟨s, w, rfl⟩
    · rw [chars_of_nil hbare] at h
      exact ⟨String.toList_inj.mp h, hnil.trans hbare.symm⟩
    · exact absurd h (name_ne_chars_wrap ha s w)
  | succ n ih =>
    rcases a.wrappers_cases with hbare | ⟨r, v, rfl⟩
    · rw [hbare] at hn
      cases hn
    rcases b.wrappers_cases with hbare | ⟨s, w, rfl⟩
    · rw [chars_of_nil hbare] at h
      exact absurd h.symm (name_ne_chars_wrap hb r v)
    · obtain ⟨rfl, hchars⟩ := chars_wrap_inj h
      have hlen : r.wrappers.length = n := by simpa [wrap] using hn
      obtain ⟨hname, hwrappers⟩ := ih (a := r) (b := s) ha hb hchars hlen
      exact ⟨hname, congrArg (· ++ [v]) hwrappers⟩

theorem chars_congr {a b : TypeRef} (hname : a.name = b.name)
    (hwrappers : a.wrappers = b.wrappers) : a.chars = b.chars := by
  rw [chars, chars, pieces, pieces, hname, hwrappers]

/-! ### What is read -/

/-- Nothing is wrapped twice so that it is never null. -/
theorem isChain_iff_not_infix {ws : List Wrapper} :
    (ws.IsChain fun v w => v = .nonNull → w ≠ .nonNull) ↔ ¬ [.nonNull, .nonNull] <:+: ws := by
  rw [List.isChain_iff_forall_rel_of_append_cons_cons]
  constructor
  · rintro h ⟨front, back, heq⟩
    exact h (by simpa using heq.symm) rfl rfl
  · rintro h v w front back rfl rfl rfl
    exact h ⟨front, back, by simp⟩

/-- What is written of a reference that can be read is read back, and nothing behind it is taken. -/
theorem WellFormed.reads_text {r : TypeRef} (h : r.WellFormed) {rest : List Token}
    (hrest : Clear [.mark .bang] rest) :
    ∃ s, typeRef.run ((Tokens.ofString r.text).words ++ rest) = .done s [] rest ∧
      s.plain = r.plain := by
  have hlexes : Piece.Lexes (r.pieces ++ []) := h.ready [] .nil
  rw [List.append_nil] at hlexes
  exact reads_typeRef h _ rest (Tokens.spelling_words_render hlexes) hrest

/-- References are written faithfully. Two of them, each to a word, are written the same exactly if
they say the same. A reference without a wrapper that says twice in a row that something is never
null is read from what is written, taken to its end and no further, with its name and its wrappers;
and from no text a reference with other wrappers is ever read. -/
theorem text_faithful :
    (∀ a b : TypeRef, a.name.toList ∈ Lexicon.name → b.name.toList ∈ Lexicon.name →
      (a.text = b.text ↔ a.same b = true)) ∧
    (∀ a : TypeRef, a.name.toList ∈ Lexicon.name → ¬ [.nonNull, .nonNull] <:+: a.wrappers →
      ∀ rest, (∀ t ∈ rest.head?, t.kind ≠ .mark .bang) →
        ∃ r, typeRef.run ((Tokens.ofString a.text).words ++ rest) = .done r [] rest ∧
          r.name = a.name ∧ r.wrappers = a.wrappers) ∧
    ∀ source : String, ∀ ts, ts <:+ (Tokens.ofString source).words →
      ∀ r found rest, typeRef.run ts = .done r found rest →
        r.name.toList ∈ Lexicon.name ∧ ¬ [.nonNull, .nonNull] <:+: r.wrappers := by
  refine ⟨fun a b ha hb => ?_, fun a ha hw rest hrest => ?_, fun source ts hts r found rest h => ?_⟩
  · rw [text_eq_iff, same_iff]
    exact ⟨eq_of_chars_eq ha hb, fun h => chars_congr h.1 h.2⟩
  · have hwell : TypeRef.WellFormed { a with binding := none } :=
      ⟨isName_of_mem_name ha, isChain_iff_not_infix.mpr hw, rfl⟩
    have hclear : Clear [.mark .bang] rest := by simpa [Clear] using hrest
    obtain ⟨r, hrun, hplain⟩ := hwell.reads_text hclear
    have hname := congrArg TypeRef.name hplain
    have hwrappers := congrArg TypeRef.wrappers hplain
    exact ⟨r, hrun, hname, hwrappers⟩
  · have hcut : ∀ t ∈ ts, t.IsCut := fun t ht => Tokens.isCut_words _ t (hts.subset ht)
    have hwell := ensures_typeRef ts hcut r found rest h
    exact ⟨hwell.name.mem_name, isChain_iff_not_infix.mp hwell.wrappers⟩

/-- A word under every wrapper that it can have, beside another reference to it, before a colon and
alone. -/
theorem text_faithful_matrix :
    let a : TypeRef := ⟨"on", [.nonNull, .list, .nonNull, .list, .nonNull], default, none⟩
    let b : TypeRef := ⟨"on", [.nonNull, .nonNull], default, some .builtin⟩
    let colon : Token := ⟨.mark .colon, ":", default⟩
    let words := (Tokens.ofString "[[on!]!]!").words
    (a.text = "[[on!]!]!" ∧ a.name.toList ∈ Lexicon.name ∧ ¬ [.nonNull, .nonNull] <:+: a.wrappers) ∧
      a.text ≠ b.text ∧
      (∃ r, typeRef.run (words ++ [colon]) = .done r [] [colon] ∧ r.wrappers = a.wrappers) ∧
      ∃ r, typeRef.run words = .done r [] [] ∧ r.name.toList ∈ Lexicon.name := by
  intro a b colon words
  obtain ⟨hsame, hread, hshape⟩ := text_faithful
  have htext : a.text = "[[on!]!]!" := by decide
  have hname : a.name.toList ∈ Lexicon.name :=
    Lexicon.mem_name.mpr ⟨⟨'o', by decide, by decide⟩, by decide⟩
  have hwrappers : ¬ [.nonNull, .nonNull] <:+: a.wrappers := by decide
  refine ⟨⟨htext, hname, hwrappers⟩, ?_, ?_, ?_⟩
  · rw [ne_eq, hsame a b hname hname]
    decide
  · obtain ⟨r, hrun, -, hr⟩ := hread a hname hwrappers [colon] (by simp [colon])
    rw [htext] at hrun
    exact ⟨r, hrun, hr⟩
  · obtain ⟨r, hrun, -, -⟩ := hread a hname hwrappers [] nofun
    rw [htext, List.append_nil] at hrun
    exact ⟨r, hrun, (hshape _ words (List.suffix_refl words) r [] [] hrun).1⟩

end TypeRef

end SchemaLang
