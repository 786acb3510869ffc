import SchemaLang.Proofs.Guarded.Bytes

/-! Scanning a source byte by byte. The scanner keeps a place in the source and looks at the bytes
from there on; it moves by single bytes, also through the middle of a character, and takes the text
of a token or a comment as a slice of the source. All its sums and slices are guarded. A loop goes
on as long as fewer bytes remain each time. -/

namespace SchemaLang.Scanner

open Guarded

variable (source : List Char)

/-! ### Looking and moving -/

/-- The byte behind a place. -/
def peek (p : Place) : Option Char := (bytes source)[p.offset]?

/-- The byte `n` bytes further on. -/
def peekAt (p : Place) (n : Nat) : Guarded (Option Char) := do
  return (bytes source)[← add p.offset n]?

/-- Do these bytes come, the first of them `n` bytes further on? -/
def seesBytes (p : Place) (n : Nat) : List Char → Guarded Bool
  | [] => return true
  | b :: bs => do
    if (← peekAt source p n) = some b then seesBytes p (n + 1) bs else return false

/-- Does this text come? -/
def sees (p : Place) (cs : List Char) : Guarded Bool := seesBytes source p 0 (bytes cs)

/-- Moves by one byte. The tail bytes of a character share its column. -/
def advance (p : Place) : Guarded Place :=
  match peek source p with
  | none => return p
  | some b => do
    let offset ← add p.offset 1
    if b = '\n' then return ⟨offset, ⟨← add p.position.line 1, 1⟩⟩
    else if isTail b then return ⟨offset, p.position⟩
    else return ⟨offset, ⟨p.position.line, ← add p.position.column 1⟩⟩

def advanceBy : Nat → Place → Guarded Place
  | 0, p => return p
  | n + 1, p => do advanceBy n (← advance source p)

/-- The number of bytes behind a place. -/
def remaining (p : Place) : Nat := (bytes source).length - p.offset

/-- Moves over one character, of however many bytes. -/
def skipChar (p : Place) : Guarded Place := do
  let rest ← slice source p.offset (bytes source).length
  advanceBy source (rest.head?.elim 1 Char.utf8Size) p

def whileStep (test : Char → Bool) (s : Bool × Place) :
    Guarded ((Bool × Place) ⊕ (Bool × Place)) := do
  if (peek source s.2).any test then return .inr (true, ← advance source s.2)
  else return .inl s

/-- Moves on while the test holds, and tells whether it did once. -/
def skipWhile (test : Char → Bool) (p : Place) : Guarded (Bool × Place) :=
  loop (fun s => remaining source s.2) (whileStep source test) (false, p)

/-! ### Trivia -/

/-- Moves to the end of the line. -/
def skipComment (p : Place) : Guarded Place := do
  let rest ← sliceBytes (bytes source) p.offset
  let stop ← add p.offset (rest.findIdx (· == '\n'))
  let comment ← slice source p.offset stop
  return ⟨stop, ⟨p.position.line, ← add p.position.column comment.length⟩⟩

def triviaStep (p : Place) : Guarded (Place ⊕ Place) := do
  if (peek source p).any isSeparator then return .inr (← advance source p)
  else if peek source p = some '#' then return .inr (← skipComment source p)
  else if ← sees source p [byteOrderMark] then return .inr ⟨← add p.offset 3, p.position⟩
  else return .inl p

def skipTrivia (p : Place) : Guarded Place := loop (remaining source) (triviaStep source) p

/-! ### Lexemes -/

def scanWord (p : Place) : Guarded (TokenKind × Place) := do
  let (_, q) ← skipWhile source Lexeme.isNameChar p
  return (Lexeme.wordKind (← slice source p.offset q.offset), q)

/-- Moves over a plus or minus sign, if one comes. -/
def skipSign (p : Place) : Guarded Place :=
  if (peek source p).any fun b => b = '+' || b = '-' then advance source p else return p

/-- The rest of a number behind its fraction, the kind of the number so far being `kind`. -/
def scanExponent (kind : TokenKind) (p : Place) : Guarded (TokenKind × Place) := do
  if (peek source p).any fun b => b = 'e' || b = 'E' then
    let (any, p) ← skipWhile source Char.isDigit (← skipSign source (← advance source p))
    return (if any then .float else .error, p)
  else return (kind, p)

def scanFraction (p : Place) : Guarded (TokenKind × Place) := do
  if peek source p = some '.' then
    if (← peekAt source p 1).any Char.isDigit then
      let (_, p) ← skipWhile source Char.isDigit (← advance source p)
      scanExponent source .float p
    else scanExponent source .int p
  else scanExponent source .int p

def scanInteger (p : Place) : Guarded (TokenKind × Place) := do
  if peek source p = some '0' then scanFraction source (← advance source p)
  else
    let (_, p) ← skipWhile source Char.isDigit p
    scanFraction source p

def scanNumber (p : Place) : Guarded (TokenKind × Place) := do
  if peek source p = some '-' then
    let p ← advance source p
    if (peek source p).any Char.isDigit then scanInteger source p else return (.error, p)
  else scanInteger source p

def quotedStep (p : Place) : Guarded ((TokenKind × Place) ⊕ Place) := do
  if peek source p = none ∨ peek source p = some '\n' then return .inl (.error, p)
  else if peek source p = some '"' then return .inl (.string, ← advance source p)
  else if peek source p = some '\\' then return .inr (← skipChar source (← advance source p))
  else return .inr (← advance source p)

def blockStep (p : Place) : Guarded ((TokenKind × Place) ⊕ Place) := do
  if peek source p = none then return .inl (.error, p)
  else if ← sees source p Block.tripleQuote then
    return .inl (.blockString, ← advanceBy source 3 p)
  else if ← sees source p ('\\' :: Block.tripleQuote) then return .inr (← advanceBy source 4 p)
  else return .inr (← advance source p)

def scanString (p : Place) : Guarded (TokenKind × Place) := do
  let p ← advance source p
  if ← sees source p ['"', '"'] then
    loop (remaining source) (blockStep source) (← advanceBy source 2 p)
  else loop (remaining source) (quotedStep source) p

/-- The kind of the lexeme that begins with the byte `b`, and the place behind it. -/
def scan (b : Char) (p : Place) : Guarded (TokenKind × Place) := do
  match Mark.ofChar? b with
  | some m => return (.mark m, ← advance source p)
  | none =>
    if b = '"' then scanString source p
    else if b = '-' ∨ b.isDigit then scanNumber source p
    else if Lexeme.isNameStart b then scanWord source p
    else return (.error, ← skipChar source p)

/-! ### Tokens -/

/-- The next token and the place behind it. -/
def next (p : Place) : Guarded (Token × Place) := do
  let p ← skipTrivia source p
  match peek source p with
  | none => return (⟨.eof, "", ⟨p.position, .empty p.offset⟩⟩, p)
  | some b =>
    let (kind, q) ← scan source b p
    let text ← slice source p.offset q.offset
    return (⟨kind, String.ofList text, ⟨p.position, ⟨p.offset, q.offset⟩⟩⟩, q)

def tokenStep (s : Place × List Token) : Guarded (Tokens ⊕ (Place × List Token)) := do
  let (t, p) ← next source s.1
  if t.isEof then return .inl ⟨s.2, t⟩ else return .inr (p, s.2 ++ [t])

/-- All tokens of the source. -/
def tokens : Guarded Tokens :=
  loop (fun s => remaining source s.1) (tokenStep source) (.start, [])

end SchemaLang.Scanner
