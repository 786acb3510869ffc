import SchemaLang.Proofs.RoundTrip
import SchemaLang.Proofs.Text.Concat

/-! Strings as they are written and read again. A string in quotes always comes out as it went in,
whatever is in it and whatever comes behind it but another quote. A description does so if it has
no line feed; one that has is written as a block, and comes out as it went in exactly if it is
block-safe, under every indentation alike. -/

namespace SchemaLang

open Piece Reader

/-! ### Strings in quotes -/

theorem Place.locate_start (text : List Char) :
    Place.start.locate text = ⟨.start, ⟨0, (String.ofList text).utf8ByteSize⟩⟩ := by
  have h := (Passes.pastAll .start text).1
  rw [byteCount_ofList, locate, h, start, Nat.zero_add]

/-- The tokens of a text that begins with a string in quotes. -/
theorem Tokens.ofCursor_write (p : Place) (value : List Char) {rest : List Char}
    (h : rest.head? ≠ some '"') :
    ofCursor ⟨p, Quoted.write value ++ rest⟩ =
      let back := ofCursor ⟨p.pastAll (Quoted.write value), rest⟩
      ⟨⟨.string, String.ofList (Quoted.write value), p.locate (Quoted.write value)⟩ :: back.words,
        back.stop⟩ := by
  have hwrite : Quoted.write value ++ rest = '"' :: (Quoted.encode value ++ '"' :: rest) := by
    simp [Quoted.write]
  have hskip : (Cursor.mk p (Quoted.write value ++ rest)).skipTrivia =
      ⟨p, '"' :: (Quoted.encode value ++ '"' :: rest)⟩ := by
    rw [hwrite]
    exact Cursor.skipTrivia_cons (by decide)
  rw [ofCursor_of_skipTrivia hskip, Lexeme.scan_write value h]

/-- A string is written in quotes as one token that covers all that was written and has the string
for its value, unless a quote comes right behind it; what comes behind it is read from there on. -/
theorem ofString_quoted (s rest : String) (h : rest.toList.head? ≠ some '"') :
    let text := String.ofList (Quoted.write s.toList)
    ∃ t, t.kind = .string ∧ t.text = text ∧
      t.location = ⟨.start, ⟨0, text.utf8ByteSize⟩⟩ ∧ t.stringValue? = some s ∧
      (Tokens.ofString (text ++ rest)).toList =
        t :: (Tokens.ofCursor ⟨Place.start.pastAll text.toList, rest.toList⟩).toList := by
  intro text
  refine ⟨⟨.string, text, Place.start.locate (Quoted.write s.toList)⟩, rfl, rfl,
    Place.locate_start _, ?_, ?_⟩
  · simp [Token.stringValue?, text, Quoted.read_write]
  · have hlist : (text ++ rest).toList = Quoted.write s.toList ++ rest.toList := by
      rw [String.toList_append, String.toList_ofList]
    rw [Tokens.ofString, Cursor.ofString, hlist, Tokens.ofCursor_write _ _ h, Tokens.toList,
      String.toList_ofList]
    rfl

/-- Quotes, a backslash, line breaks and a control character, with a name right behind them. -/
theorem ofString_quoted_escapes :
    let text := String.ofList (Quoted.write "\"\\\r\n\x00\"".toList)
    text = "\"\\\"\\\\\\r\\n\\u0000\\\"\"" ∧ "x".toList.head? ≠ some '"' ∧
      ∃ t, t.text = text ∧ t.stringValue? = some "\"\\\r\n\x00\"" ∧
        (Tokens.ofString (text ++ "x")).toList.head? = some t := by
  intro text
  have hx : "x".toList.head? ≠ some '"' := by decide
  obtain ⟨t, -, ht, -, hv, htokens⟩ := ofString_quoted "\"\\\r\n\x00\"" "x" hx
  exact ⟨by decide, hx, t, ht, hv, by rw [htokens, List.head?_cons]⟩

/-! ### Descriptions -/

/-- The indentation of the lines at some level of nesting. -/
def PrintOptions.indentAt (o : PrintOptions) (level : Nat) : List Char :=
  if o.useTabs then List.replicate level '\t' else List.replicate (level * o.indentSize) ' '

namespace PrintOptions

/-- Descriptions are printed at the levels 0 and 1. -/
theorem indentAt_zero (o : PrintOptions) : o.indentAt 0 = [] := by simp [indentAt]

theorem indentAt_one (o : PrintOptions) : o.indentAt 1 = o.indent := by simp [indentAt, indent]

theorem isIndent_indentAt (o : PrintOptions) (level : Nat) : Block.IsIndent (o.indentAt level) := by
  unfold indentAt
  split
  next => exact fun c hc => .inr (List.eq_of_mem_replicate hc)
  next => exact fun c hc => .inl (List.eq_of_mem_replicate hc)

end PrintOptions

/-- A description that is printed, at whatever level of nesting and under whatever options, is read
as one description; it is the one that was printed exactly if it has no line feed or is
block-safe. -/
theorem splitDescription_printed (o : PrintOptions) (level : Nat) (d : String) :
    let text := render (descriptionPieces (o.indentAt level) (some d))
    ∃ v, splitDescription (Tokens.ofString text).words = (some v, []) ∧
      (v = d ↔ ('\n' ∈ d.toList → Block.Safe d.toList)) := by
  have hi := o.isIndent_indentAt level
  have hlexes : Lexes (descriptionPieces (o.indentAt level) (some d) ++ []) :=
    lexes_description hi (some d) trivial
  rw [List.append_nil] at hlexes
  have hwords := Tokens.spelling_words_render hlexes
  have hdescribes := describes_descriptionPieces (o.indentAt level) (some d)
  rw [← hwords] at hdescribes
  have hclear : Clear [.string, .blockString] [] := by simp [Clear]
  have hsplit := splitDescription_of_describes hdescribes hclear
  rw [List.append_nil] at hsplit
  exact ⟨_, hsplit, reread_eq_iff hi d⟩

/-- A description that ends with a line feed is none that is read back. -/
example : ¬ Block.Safe "a\n".toList := fun h => absurd (h.last [] (by decide)) (by decide)

end SchemaLang
