import SchemaLang.Document.Printer
import SchemaLang.Proofs.Text.Block
import SchemaLang.Proofs.Text.Lexeme

/-! Pieces of text give their lexemes back. In a list of pieces each word and each string in
quotes is followed by something that ends it, so that cutting the text into tokens gives the
lexemes of the pieces, in order and without the layout. -/

namespace SchemaLang

/-- What a token is, apart from its place. -/
def Token.spelling (t : Token) : TokenKind × String := (t.kind, t.text)

namespace Piece

open Lexeme (Delimited IsPlain Relexes)

/-! ### Lexemes of pieces -/

/-- The token that a piece is read as, without its place. -/
def spelling? : Piece → Option (TokenKind × String)
  | word w => some (Lexeme.kindOf w.toList, w)
  | mark m => some (.mark m, m.text)
  | quoted v => some (.string, String.ofList (Quoted.write v.toList))
  | block indent v => some (.blockString, String.ofList (Block.write indent v.toList))
  | layout _ => none

/-- The tokens that pieces are read as, without their places. -/
def spellings (ps : List Piece) : List (TokenKind × String) := ps.filterMap spelling?

@[simp] theorem spellings_nil : spellings [] = [] := rfl

@[simp] theorem spellings_word (w : String) (ps : List Piece) :
    spellings (word w :: ps) = (Lexeme.kindOf w.toList, w) :: spellings ps := rfl

@[simp] theorem spellings_mark (m : Mark) (ps : List Piece) :
    spellings (mark m :: ps) = (.mark m, m.text) :: spellings ps := rfl

@[simp] theorem spellings_quoted (v : String) (ps : List Piece) : spellings (quoted v :: ps) =
    (.string, String.ofList (Quoted.write v.toList)) :: spellings ps := rfl

@[simp] theorem spellings_layout (cs : List Char) (ps : List Piece) :
    spellings (layout cs :: ps) = spellings ps := rfl

@[simp] theorem spellings_space (ps : List Piece) : spellings (space :: ps) = spellings ps := rfl

@[simp] theorem spellings_newline (ps : List Piece) :
    spellings (newline :: ps) = spellings ps := rfl

@[simp] theorem spellings_comma (ps : List Piece) : spellings (comma :: ps) = spellings ps := rfl

@[simp] theorem spellings_blankLine (ps : List Piece) :
    spellings (blankLine :: ps) = spellings ps := rfl

@[simp] theorem spellings_append (ps qs : List Piece) :
    spellings (ps ++ qs) = spellings ps ++ spellings qs := List.filterMap_append

@[simp] theorem spellings_flatMap {α : Type} (f : α → List Piece) (xs : List α) :
    spellings (xs.flatMap f) = xs.flatMap fun x => spellings (f x) := by
  rw [spellings, List.filterMap_flatMap]
  rfl

theorem spellings_flatten (ps : List (List Piece)) :
    spellings ps.flatten = ps.flatMap spellings := by
  rw [← List.flatMap_id, spellings_flatMap]
  rfl

theorem separate_cons_cons (sep p q : List Piece) (ps : List (List Piece)) :
    separate sep (p :: q :: ps) = p ++ (sep ++ separate sep (q :: ps)) := by
  simp [separate, List.intercalate]

/-- The separator stands before each list of pieces but the first. -/
theorem spellings_separate (sep p : List Piece) (ps : List (List Piece)) :
    spellings (separate sep (p :: ps)) =
      spellings p ++ ps.flatMap fun q => spellings sep ++ spellings q := by
  induction ps generalizing p with
  | nil => simp [separate, List.intercalate]
  | cons q ps ih =>
    rw [separate_cons_cons, spellings_append, spellings_append, ih, List.flatMap_cons,
      List.append_assoc]

/-- Layout between them leaves no trace. -/
theorem spellings_separate_layout {sep : List Piece} (h : spellings sep = [])
    (ps : List (List Piece)) : spellings (separate sep ps) = ps.flatMap spellings := by
  cases ps with
  | nil => rfl
  | cons p ps =>
    rw [spellings_separate, List.flatMap_cons, h]
    rfl

/-- Items between marks. -/
theorem spellings_between {α : Type} (opening close : Mark) (f : α → List Piece) (xs : List α) :
    spellings ([mark opening] ++ separate [comma] (xs.map f) ++ [mark close]) =
      (.mark opening, opening.text) ::
        (xs.flatMap (fun x => spellings (f x)) ++ [(.mark close, close.text)]) := by
  rw [spellings_append, spellings_append, spellings_separate_layout rfl, List.flatMap_map]
  rfl

theorem spellings_inParentheses {α : Type} (f : α → List Piece) (xs : List α) :
    spellings (inParentheses (xs.map f)) = if xs.isEmpty then []
      else (.mark .lparen, Mark.lparen.text) ::
        (xs.flatMap (fun x => spellings (f x)) ++ [(.mark .rparen, Mark.rparen.text)]) := by
  rw [inParentheses, List.isEmpty_map]
  split
  next => rfl
  next => exact spellings_between .lparen .rparen f xs

theorem spellings_inBraces {α : Type} (f : α → List Piece) (xs : List α) :
    spellings (inBraces (xs.map f)) = (.mark .lbrace, Mark.lbrace.text) ::
      (xs.flatMap (fun x => spellings (f x)) ++ [(.mark .rbrace, Mark.rbrace.text)]) := by
  rw [inBraces, spellings_append, spellings_append, spellings_flatten, List.flatMap_map]
  rfl

theorem spellings_inBracesIfAny {α : Type} (f : α → List Piece) (xs : List α) :
    spellings (inBracesIfAny (xs.map f)) = if xs.isEmpty then []
      else (.mark .lbrace, Mark.lbrace.text) ::
        (xs.flatMap (fun x => spellings (f x)) ++ [(.mark .rbrace, Mark.rbrace.text)]) := by
  rw [inBracesIfAny, List.isEmpty_map]
  split
  next => rfl
  next => exact spellings_inBraces f xs

/-- One or more items with a mark between each two, spaces around it. -/
theorem spellings_separate_mark {α : Type} (m : Mark) (f : α → List Piece) (x : α) (xs : List α) :
    spellings (separate [space, mark m, space] ((x :: xs).map f)) =
      spellings (f x) ++ xs.flatMap fun y => (.mark m, m.text) :: spellings (f y) := by
  rw [List.map_cons, spellings_separate, List.flatMap_map]
  rfl

/-- Is the piece a lexeme, or layout, of the language? -/
def Sound : Piece → Prop
  | word w => ∃ k, IsPlain k ∧ Relexes k w.toList
  | block indent _ => Block.IsIndent indent
  | layout cs => ∀ c ∈ cs, isSeparator c = true
  | mark _ | quoted _ => True

/-- Could the lexeme go on with the text behind it? -/
def isOpen : Piece → Bool
  | word _ | quoted _ => true
  | mark _ | block _ _ | layout _ => false

/-- Sound pieces, each open one with a delimiter behind it. -/
def Lexes : List Piece → Prop
  | [] => True
  | p :: ps => p.Sound ∧ (p.isOpen = true → Delimited (ps.flatMap text)) ∧ Lexes ps

theorem scan_text {p : Piece} {s : TokenKind × String} {rest : List Char} (hp : p.Sound)
    (hs : p.spelling? = some s) (hrest : p.isOpen = true → Delimited rest) :
    ∃ c cs, p.text ++ rest = c :: cs ∧ Lexeme.scan c cs = ⟨s.1, p.text, rest⟩ ∧
      s.2 = String.ofList p.text ∧ s.1 ≠ .error ∧ s.1 ≠ .eof := by
  cases p with
  | word w =>
    cases hs
    obtain ⟨k, hk, hw⟩ := hp
    have hkind := hw.kindOf_eq
    obtain ⟨c, cs, hc, hscan⟩ := hw
    refine ⟨c, cs ++ rest, by rw [text, hc]; rfl, ?_, (String.ofList_toList).symm, ?_⟩
    · rw [text, hkind, hc]
      exact hscan rest (hrest rfl)
    · dsimp only
      rw [hkind]
      rcases hk with hk | rfl | rfl
      · constructor
        all_goals
          rintro rfl
          cases hk
      · simp
      · simp
  | mark m =>
    cases hs
    refine ⟨m.char, rest, rfl, ?_, rfl, by simp, by simp⟩
    rw [Lexeme.scan, Mark.ofChar?_char]
    rfl
  | quoted v =>
    cases hs
    refine ⟨'"', Quoted.encode v.toList ++ '"' :: rest, ?_, ?_, rfl, by simp, by simp⟩
    · simp [text, Quoted.write]
    · exact Lexeme.scan_write v.toList fun h => (hrest rfl '"' h).2.2 rfl
  | block indent v =>
    cases hs
    refine ⟨'"', '"' :: '"' :: (Block.body indent v.toList ++ (Block.tripleQuote ++ rest)), ?_, ?_,
      rfl, by simp, by simp⟩
    · rw [text, Block.write_eq]
      simp [Block.tripleQuote]
    · exact Lexeme.scan_block hp v.toList rest
  | layout cs => cases hs

end Piece

/-! ### Cursors -/

namespace Cursor

theorem skipTrivia_cons {p : Place} {c : Char} {cs : List Char}
    (h : isSeparator c = false ∧ c ≠ '#' ∧ c ≠ byteOrderMark) :
    (Cursor.mk p (c :: cs)).skipTrivia = ⟨p, c :: cs⟩ := by
  obtain ⟨hs, hc, hb⟩ := h
  simp [skipTrivia, skipFrom, hs, hc, hb]

/-- Passing over separators only moves the place. -/
theorem skipTrivia_append (p : Place) {cs : List Char} (h : ∀ c ∈ cs, isSeparator c = true)
    (rest : List Char) :
    ∃ q, (Cursor.mk p (cs ++ rest)).skipTrivia = (Cursor.mk q rest).skipTrivia := by
  induction cs generalizing p with
  | nil => exact ⟨p, rfl⟩
  | cons c cs ih =>
    obtain ⟨q, hq⟩ := ih (p.past c) fun d hd => h d (List.mem_cons_of_mem c hd)
    refine ⟨q, Eq.trans ?_ hq⟩
    simp [skipTrivia, skipFrom, h c List.mem_cons_self]

theorem next_eq_of_skipTrivia {a b : Cursor} (h : a.skipTrivia = b.skipTrivia) :
    a.next = b.next := by
  rw [next, next, h]

end Cursor

namespace Tokens

theorem ofCursor_eq_of_next {a b : Cursor} (h : a.next = b.next) : ofCursor a = ofCursor b := by
  rw [ofCursor.eq_def a, ofCursor.eq_def b, h]

theorem words_ofCursor_nil (p : Place) : (ofCursor ⟨p, []⟩).words = [] := by
  rw [ofCursor]
  rfl

/-- The first token of a text and those behind it. -/
theorem words_ofCursor_cons (p : Place) {c : Char} {cs : List Char}
    (he : (Lexeme.scan c cs).kind ≠ .error) (hf : (Lexeme.scan c cs).kind ≠ .eof) :
    ∃ t q, (ofCursor ⟨p, c :: cs⟩).words = t :: (ofCursor ⟨q, (Lexeme.scan c cs).rest⟩).words ∧
      t.spelling = ((Lexeme.scan c cs).kind, String.ofList (Lexeme.scan c cs).text) := by
  have hnext : (Cursor.mk p (c :: cs)).next =
      (⟨(Lexeme.scan c cs).kind, String.ofList (Lexeme.scan c cs).text,
        p.locate (Lexeme.scan c cs).text⟩,
        ⟨p.pastAll (Lexeme.scan c cs).text, (Lexeme.scan c cs).rest⟩) := by
    rw [Cursor.next, Cursor.skipTrivia_cons (Lexeme.not_trivia_of_kind_ne_error he)]
  have heof : ¬ (Cursor.mk p (c :: cs)).next.1.isEof = true := by
    rw [hnext]
    simpa [Token.isEof] using hf
  refine ⟨⟨(Lexeme.scan c cs).kind, String.ofList (Lexeme.scan c cs).text,
    p.locate (Lexeme.scan c cs).text⟩, p.pastAll (Lexeme.scan c cs).text, ?_, rfl⟩
  rw [ofCursor, dif_neg heof, hnext]

/-- The tokens of a text put together from pieces are the lexemes of the pieces. -/
theorem spelling_words_ofCursor {ps : List Piece} (h : Piece.Lexes ps) (p : Place) :
    (ofCursor ⟨p, ps.flatMap Piece.text⟩).words.map Token.spelling = Piece.spellings ps := by
  induction ps generalizing p with
  | nil => rw [List.flatMap_nil, words_ofCursor_nil]; rfl
  | cons q ps ih =>
    obtain ⟨hq, hopen, hps⟩ := h
    rw [List.flatMap_cons]
    cases hs : q.spelling? with
    | some s =>
      obtain ⟨c, cs, htext, hscan, hword, he, hf⟩ := Piece.scan_text hq hs hopen
      obtain ⟨t, r, hwords, ht⟩ := words_ofCursor_cons p (by rwa [hscan]) (by rwa [hscan])
      rw [hscan] at hwords ht
      rw [htext, hwords, List.map_cons, ih hps, ht, Piece.spellings, Piece.spellings,
        List.filterMap_cons_some hs, ← hword]
    | none =>
      cases q with
      | layout cs =>
        obtain ⟨r, hr⟩ := Cursor.skipTrivia_append p hq (ps.flatMap Piece.text)
        have hof := ofCursor_eq_of_next (Cursor.next_eq_of_skipTrivia hr)
        rw [Piece.text, hof, ih hps, Piece.spellings, Piece.spellings, List.filterMap_cons_none hs]
      | word w => cases hs
      | mark m => cases hs
      | quoted v => cases hs
      | block indent v => cases hs

theorem spelling_words_render {ps : List Piece} (h : Piece.Lexes ps) :
    (ofString (Piece.render ps)).words.map Token.spelling = Piece.spellings ps := by
  rw [ofString, Cursor.ofString, Piece.render, String.toList_ofList]
  exact spelling_words_ofCursor h _

end Tokens

end SchemaLang
