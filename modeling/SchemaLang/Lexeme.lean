import SchemaLang.Token

/-! Lexemes: the longest piece at the front of a text that makes one token. Where
the text is no token of the language the piece is an error, and reading goes on after it,
so that nothing is refused. Every piece has at least one character, and piece and rest
together are the text. -/

namespace SchemaLang

/-- A piece of text, its kind, and the text behind it. -/
structure Lexeme where
  kind : TokenKind
  text : List Char
  rest : List Char

namespace Lexeme

/-! ### Words -/

def isNameStart (c : Char) : Bool := c.isAlpha || c == '_'

def isNameChar (c : Char) : Bool := c.isAlphanum || c == '_'

/-- A word is a keyword or else an identifier. -/
def wordKind (word : List Char) : TokenKind :=
  match Keyword.ofText? (String.ofList word) with
  | some k => .keyword k
  | none => .ident

def word (cs : List Char) : Lexeme :=
  ⟨wordKind (cs.takeWhile isNameChar), cs.takeWhile isNameChar, cs.dropWhile isNameChar⟩

/-! ### Numbers -/

def splitDigits (cs : List Char) : List Char × List Char :=
  (cs.takeWhile Char.isDigit, cs.dropWhile Char.isDigit)

/-- A minus sign, if there is one. -/
def splitMinus : List Char → List Char × List Char
  | '-' :: cs => (['-'], cs)
  | cs => ([], cs)

/-- A zero stands alone; any other digit brings all digits after it. -/
def splitInteger : List Char → List Char × List Char
  | '0' :: cs => (['0'], cs)
  | cs => splitDigits cs

/-- A point and the digits after it, if there is a digit right after the point. -/
def splitFraction : List Char → List Char × List Char
  | '.' :: cs =>
    if (splitDigits cs).1 = [] then ([], '.' :: cs)
    else ('.' :: (splitDigits cs).1, (splitDigits cs).2)
  | cs => ([], cs)

/-- A plus or minus sign, if there is one. -/
def splitSign : List Char → List Char × List Char
  | '+' :: cs => (['+'], cs)
  | '-' :: cs => (['-'], cs)
  | cs => ([], cs)

/-- The letter of an exponent, a sign and digits, if there is the letter. -/
def splitExponent : List Char → List Char × List Char
  | [] => ([], [])
  | c :: cs =>
    if c = 'e' ∨ c = 'E' then
      let (sign, afterSign) := splitSign cs
      let (digits, rest) := splitDigits afterSign
      (c :: (sign ++ digits), rest)
    else ([], c :: cs)

/-- A number with a fraction or an exponent is a float; an exponent without digits is an
error. -/
def numberKind (fraction exponent : List Char) : TokenKind :=
  if exponent = [] then if fraction = [] then .int else .float
  else if (exponent.getLast?.map Char.isDigit) = some true then .float
  else .error

/-- A number, for a text that begins with a digit or a minus sign. A sign that no digit
follows is an error by itself. -/
def number (cs : List Char) : Lexeme :=
  let (minus, afterMinus) := splitMinus cs
  let (integer, afterInteger) := splitInteger afterMinus
  if integer = [] then ⟨.error, minus, afterMinus⟩
  else
    let (fraction, afterFraction) := splitFraction afterInteger
    let (exponent, rest) := splitExponent afterFraction
    ⟨numberKind fraction exponent, minus ++ integer ++ fraction ++ exponent, rest⟩

/-! ### Strings -/

/-- The piece with `front` before it; its kind and rest stay. -/
def prepend (front : List Char) (l : Lexeme) : Lexeme := { l with text := front ++ l.text }

/-- The rest of a string after its opening quote. It breaks off before a line feed, but a
backslash takes the character after it, whatever that is. -/
def quotedTail : List Char → Lexeme
  | [] => ⟨.error, [], []⟩
  | '"' :: cs => ⟨.string, ['"'], cs⟩
  | '\n' :: cs => ⟨.error, [], '\n' :: cs⟩
  | '\\' :: c :: cs => (quotedTail cs).prepend ['\\', c]
  | c :: cs => (quotedTail cs).prepend [c]

/-- The rest of a block string after its opening quotes. Triple quotes with a backslash
before them do not close it. -/
def blockTail : List Char → Lexeme
  | [] => ⟨.error, [], []⟩
  | '"' :: '"' :: '"' :: cs => ⟨.blockString, ['"', '"', '"'], cs⟩
  | '\\' :: '"' :: '"' :: '"' :: cs => (blockTail cs).prepend ['\\', '"', '"', '"']
  | c :: cs => (blockTail cs).prepend [c]

/-- A string of either form, for the text after its first quote. -/
def string : List Char → Lexeme
  | '"' :: '"' :: cs => (blockTail cs).prepend ['"', '"', '"']
  | cs => (quotedTail cs).prepend ['"']

/-! ### Any lexeme -/

/-- The lexeme at the front of `c :: cs`. -/
def scan (c : Char) (cs : List Char) : Lexeme :=
  match Mark.ofChar? c with
  | some m => ⟨.mark m, [c], cs⟩
  | none =>
    if c = '"' then string cs
    else if c = '-' ∨ c.isDigit then number (c :: cs)
    else if isNameStart c then word (c :: cs)
    else ⟨.error, [c], cs⟩

/-! ### Nothing is lost -/

theorem word_append (cs : List Char) : (word cs).text ++ (word cs).rest = cs := by
  simp [word]

theorem splitDigits_append (cs : List Char) : (splitDigits cs).1 ++ (splitDigits cs).2 = cs := by
  simp [splitDigits]

theorem splitMinus_append (cs : List Char) : (splitMinus cs).1 ++ (splitMinus cs).2 = cs := by
  unfold splitMinus
  split <;> simp

theorem splitInteger_append (cs : List Char) :
    (splitInteger cs).1 ++ (splitInteger cs).2 = cs := by
  unfold splitInteger
  split <;> simp [splitDigits_append]

theorem splitFraction_append (cs : List Char) :
    (splitFraction cs).1 ++ (splitFraction cs).2 = cs := by
  unfold splitFraction
  split
  · split <;> simp [splitDigits_append]
  · simp

theorem splitSign_append (cs : List Char) : (splitSign cs).1 ++ (splitSign cs).2 = cs := by
  unfold splitSign
  split <;> simp

theorem splitExponent_append (cs : List Char) :
    (splitExponent cs).1 ++ (splitExponent cs).2 = cs := by
  unfold splitExponent
  split
  · rfl
  · split
    · simp [splitDigits_append, splitSign_append]
    · simp

theorem number_append (cs : List Char) : (number cs).text ++ (number cs).rest = cs := by
  unfold number
  dsimp only
  split
  · exact splitMinus_append cs
  · simp [splitExponent_append, splitFraction_append, splitInteger_append, splitMinus_append]

theorem prepend_append (front : List Char) (l : Lexeme) :
    (l.prepend front).text ++ (l.prepend front).rest = front ++ (l.text ++ l.rest) := by
  simp [prepend]

theorem quotedTail_append (cs : List Char) :
    (quotedTail cs).text ++ (quotedTail cs).rest = cs := by
  fun_induction quotedTail cs <;> simp_all [prepend]

theorem blockTail_append (cs : List Char) : (blockTail cs).text ++ (blockTail cs).rest = cs := by
  fun_induction blockTail cs <;> simp_all [prepend]

theorem string_append (cs : List Char) : (string cs).text ++ (string cs).rest = '"' :: cs := by
  unfold string
  split <;> simp [prepend_append, blockTail_append, quotedTail_append]

/-- A lexeme and the text behind it are the text it was taken from. -/
theorem scan_append (c : Char) (cs : List Char) :
    (scan c cs).text ++ (scan c cs).rest = c :: cs := by
  unfold scan
  split
  · rfl
  · split
    · subst c
      exact string_append cs
    · split
      · exact number_append (c :: cs)
      · split
        · exact word_append (c :: cs)
        · rfl

/-! ### Every lexeme has a character -/

theorem splitInteger_ne_nil {c : Char} (hc : c.isDigit = true) (cs : List Char) :
    (splitInteger (c :: cs)).1 ≠ [] := by
  unfold splitInteger
  split
  · simp
  · simp [splitDigits, hc]

theorem number_text_ne_nil {c : Char} (hc : c = '-' ∨ c.isDigit = true) (cs : List Char) :
    (number (c :: cs)).text ≠ [] := by
  unfold number
  dsimp only
  split
  · next h =>
    rcases hc with rfl | hc
    · simp [splitMinus]
    · exfalso
      have hne : c ≠ '-' := by rintro rfl; exact absurd hc (by decide)
      have : splitMinus (c :: cs) = ([], c :: cs) := by
        unfold splitMinus
        split
        · next heq => simp_all
        · rfl
      rw [this] at h
      exact splitInteger_ne_nil hc cs h
  · next h => simp [h]

theorem scan_text_ne_nil (c : Char) (cs : List Char) : (scan c cs).text ≠ [] := by
  unfold scan
  split
  · simp
  · split
    · unfold string
      split <;> simp [prepend]
    · split
      · next h => exact number_text_ne_nil h cs
      · split
        · next h =>
          have : isNameChar c = true := by
            simp only [isNameStart, isNameChar, Char.isAlphanum, Bool.or_eq_true] at h ⊢
            exact h.imp_left Or.inl
          simp [word, this]
        · simp

/-- What is behind a lexeme is shorter than the text it was taken from. -/
theorem length_scan_rest_le (c : Char) (cs : List Char) :
    (scan c cs).rest.length ≤ cs.length := by
  have h := congrArg List.length (scan_append c cs)
  have hne := List.length_pos_iff.mpr (scan_text_ne_nil c cs)
  simp only [List.length_append, List.length_cons] at h
  omega

end Lexeme

end SchemaLang
