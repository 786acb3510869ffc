import SchemaLang.Lexeme

/-! A cursor walks over a text from token to token, keeping count of bytes, lines and
columns. Between tokens it passes over trivia: blanks, commas, comments and byte order
marks. -/

namespace SchemaLang

/-! ### Places -/

/-- A place between two characters of a text: the bytes before it, and the position of the
character behind it. -/
structure Place where
  offset : Nat
  position : Position
  deriving DecidableEq, Repr

namespace Place

def start : Place := ⟨0, .start⟩

/-- The place after the character `c`. -/
def past (p : Place) (c : Char) : Place :=
  ⟨p.offset + c.utf8Size,
    if c = '\n' then ⟨p.position.line + 1, 1⟩ else ⟨p.position.line, p.position.column + 1⟩⟩

/-- The place after a piece of text. -/
def pastAll (p : Place) (cs : List Char) : Place := cs.foldl past p

/-- The place after a byte order mark, which takes no column. -/
def pastByteOrderMark (p : Place) : Place := ⟨p.offset + 3, p.position⟩

/-- Where a piece of text stands that begins at `p`. -/
def locate (p : Place) (text : List Char) : Location :=
  ⟨p.position, ⟨p.offset, (p.pastAll text).offset⟩⟩

end Place

/-! ### Trivia -/

/-- The byte order mark, which may stand between any two tokens. -/
def byteOrderMark : Char := '\uFEFF'

/-- Characters that only separate tokens. -/
def isSeparator (c : Char) : Bool := c == ' ' || c == '\t' || c == '\r' || c == '\n' || c == ','

/-- A text and the place where it begins. -/
structure Cursor where
  place : Place
  rest : List Char
  deriving DecidableEq, Repr

namespace Cursor

/-- The beginning of a text. -/
def ofString (source : String) : Cursor := ⟨.start, source.toList⟩

/-- The cursor behind the trivia at the front of a text, which begins inside a comment if
`inComment` holds. A comment ends before a line feed. -/
def skipFrom (inComment : Bool) (p : Place) : List Char → Cursor
  | [] => ⟨p, []⟩
  | c :: cs =>
    if inComment && c != '\n' then skipFrom true (p.past c) cs
    else if isSeparator c then skipFrom false (p.past c) cs
    else if c = '#' then skipFrom true (p.past c) cs
    else if c = byteOrderMark then skipFrom false p.pastByteOrderMark cs
    else ⟨p, c :: cs⟩

/-- The cursor behind the trivia that it stands before. -/
def skipTrivia (c : Cursor) : Cursor := skipFrom false c.place c.rest

theorem length_skipFrom_le (b : Bool) (p : Place) (cs : List Char) :
    (skipFrom b p cs).rest.length ≤ cs.length := by
  fun_induction skipFrom b p cs <;> simp_all <;> omega

theorem length_skipTrivia_le (c : Cursor) : c.skipTrivia.rest.length ≤ c.rest.length :=
  length_skipFrom_le _ _ _

/-! ### Tokens -/

/-- The next token and the cursor behind it. At the end of the text this is the token for
the end, however often it is asked for. -/
def next (c : Cursor) : Token × Cursor :=
  let c := c.skipTrivia
  match c.rest with
  | [] => (⟨.eof, "", c.place.locate []⟩, c)
  | a :: cs =>
    let l := Lexeme.scan a cs
    (⟨l.kind, String.ofList l.text, c.place.locate l.text⟩, ⟨c.place.pastAll l.text, l.rest⟩)

/-- The next token, `none` at the end, and the cursor behind it. -/
def next? (c : Cursor) : Option Token × Cursor :=
  (if c.next.1.isEof then none else some c.next.1, c.next.2)

theorem length_next_lt {c : Cursor} (h : c.next.1.isEof = false) :
    c.next.2.rest.length < c.rest.length := by
  have hle := length_skipTrivia_le c
  unfold next at *
  dsimp only at *
  split at h
  · simp [Token.isEof] at h
  · next a cs hcs =>
    have := Lexeme.length_scan_rest_le a cs
    simp_all
    omega

end Cursor

/-- The tokens of a text: those before its end, and the token for the end. -/
structure Tokens where
  words : List Token
  stop : Token
  deriving DecidableEq, Repr

namespace Tokens

/-- All tokens, the one for the end being the last. -/
def toList (ts : Tokens) : List Token := ts.words ++ [ts.stop]

/-- The tokens from a cursor on. -/
def ofCursor (c : Cursor) : Tokens :=
  if _h : c.next.1.isEof = true then ⟨[], c.next.1⟩
  else
    let rest := ofCursor c.next.2
    ⟨c.next.1 :: rest.words, rest.stop⟩
termination_by c.rest.length
decreasing_by exact Cursor.length_next_lt (by simpa using _h)

def ofString (source : String) : Tokens := ofCursor (.ofString source)

end Tokens

end SchemaLang
