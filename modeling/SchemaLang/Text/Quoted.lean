import SchemaLang.Text.CharClass

/-! Strings in quotes. Writing escapes the quote, the backslash and the control
characters; reading knows more escapes than writing uses and never fails, a bad
hexadecimal escape being read as the replacement character. -/

namespace SchemaLang.Quoted

/-! ### Hexadecimal numbers -/

/-- The digit of value `n`, for `n < 16`. -/
def hexDigit (n : Nat) : Char := Char.ofNat (if n < 10 then 0x30 + n else 0x41 + (n - 10))

/-- The value of a digit, in either case. -/
def hexValue? (c : Char) : Option Nat :=
  let n := c.toNat
  if 0x30 ≤ n ∧ n ≤ 0x39 then some (n - 0x30)
  else if 0x41 ≤ n ∧ n ≤ 0x46 then some (n - 0x41 + 10)
  else if 0x61 ≤ n ∧ n ≤ 0x66 then some (n - 0x61 + 10)
  else none

/-- The lowest sixteen bits of `n` in four digits. -/
def hex4 (n : Nat) : List Char :=
  [hexDigit (n / 0x1000 % 16), hexDigit (n / 0x100 % 16), hexDigit (n / 0x10 % 16),
    hexDigit (n % 16)]

/-- The number written by a row of digits, `none` if one of them is no digit. -/
def readDigits (ds : List Char) : Option Nat :=
  ds.foldlM (fun n d => (hexValue? d).map (16 * n + ·)) 0

/-- A number in digits, at least one, with a plus sign before them or without. -/
def readHex : List Char → Option Nat
  | [] => none
  | '+' :: ds => if ds = [] then none else readDigits ds
  | ds => readDigits ds

/-- Stands for a character that cannot be had. -/
def replacement : Char := '\uFFFD'

/-- The character of number `n`, unless `n` is no character's number. -/
def charOf (n : Nat) : Char := if n.isValidChar then Char.ofNat n else replacement

/-! ### Writing -/

/-- The characters that are written as a backslash and one more character, with that one. -/
def shortEscapes : List (Char × Char) :=
  [('"', '"'), ('\\', '\\'), ('\n', 'n'), ('\r', 'r'), ('\t', 't')]

/-- One character as it is written between quotes. -/
def encodeChar (c : Char) : List Char :=
  match shortEscapes.lookup c with
  | some e => ['\\', e]
  | none => if isControl c then '\\' :: 'u' :: hex4 c.toNat else [c]

/-- The text between the quotes. -/
def encode (value : List Char) : List Char := value.flatMap encodeChar

/-- A string literal with its quotes. -/
def write (value : List Char) : List Char := '"' :: (encode value ++ ['"'])

/-! ### Reading -/

/-- The letters that stand for another character when a backslash is before them. -/
def letterEscapes : List (Char × Char) :=
  [('n', '\n'), ('t', '\t'), ('r', '\r'), ('b', '\x08'), ('f', '\x0c')]

/-- What a backslash and `c` stand for, `c` not being `u`: itself, if it is no such letter. -/
def unescapeChar (c : Char) : Char := (letterEscapes.lookup c).getD c

/-- Every short escape is read back. -/
theorem unescapeChar_of_mem {c e : Char} (h : (c, e) ∈ shortEscapes) :
    e ≠ 'u' ∧ unescapeChar e = c := by
  simp only [shortEscapes, List.mem_cons, Prod.mk.injEq, List.not_mem_nil, or_false] at h
  rcases h with ⟨rfl, rfl⟩ | ⟨rfl, rfl⟩ | ⟨rfl, rfl⟩ | ⟨rfl, rfl⟩ | ⟨rfl, rfl⟩ <;> decide

/-- The value of a text between quotes. The escape `u` takes the next four characters,
or as many as there are. -/
def decode : List Char → List Char
  | [] => []
  | c :: cs =>
    if c ≠ '\\' then c :: decode cs
    else match cs with
      | [] => ['\\']
      | e :: rest =>
        if e = 'u' then ((readHex (rest.take 4)).elim replacement charOf) :: decode (rest.drop 4)
        else unescapeChar e :: decode rest
termination_by cs => cs.length
decreasing_by all_goals simp <;> omega

/-- The value of a string literal with its quotes. -/
def read (literal : List Char) : List Char := decode (literal.drop 1).dropLast

end SchemaLang.Quoted
