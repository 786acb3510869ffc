import SchemaLang.Text.CharClass
import SchemaLang.Text.Lines

/-! Strings between triple quotes. The value of a body does not depend on how deep it
is indented: the indentation that all lines but the first share is cut off, and blank
lines at both ends are dropped. -/

namespace SchemaLang.Block

/-- A triple quote of the body, written with a backslash before it, without that backslash. -/
def unescapeQuotes : List Char → List Char
  | '\\' :: '"' :: '"' :: '"' :: cs => '"' :: '"' :: '"' :: unescapeQuotes cs
  | c :: cs => c :: unescapeQuotes cs
  | [] => []

/-- Each triple quote with a backslash before it. -/
def escapeQuotes : List Char → List Char
  | '"' :: '"' :: '"' :: cs => '\\' :: '"' :: '"' :: '"' :: escapeQuotes cs
  | c :: cs => c :: escapeQuotes cs
  | [] => []

/-! ### Reading -/

/-- The spaces and tabs that a line begins with. -/
def indentOf (line : List Char) : Nat := (line.takeWhile fun c => c = ' ' || c = '\t').length

/-- The indentation shared by the lines that are not blank. -/
def commonIndent (ls : List (List Char)) : Nat :=
  ((ls.filter (!isBlank ·)).map indentOf).min?.getD 0

/-- The line after its first `n` bytes, if there are so many and they end with a character. -/
def dropBytes? : Nat → List Char → Option (List Char)
  | 0, cs => some cs
  | _ + 1, [] => none
  | n + 1, c :: cs => if c.utf8Size ≤ n + 1 then dropBytes? (n + 1 - c.utf8Size) cs else none
termination_by structural _ cs => cs

/-- All lines but the first without the indentation that they share. -/
def dedent : List (List Char) → List (List Char)
  | [] => []
  | first :: others => first :: others.map fun l => (dropBytes? (commonIndent others) l).getD []

/-- The lines without the blank ones at both ends. -/
def trimBlank (ls : List (List Char)) : List (List Char) :=
  ((ls.dropWhile isBlank).reverse.dropWhile isBlank).reverse

/-- The value of the text between triple quotes. -/
def decode (body : List Char) : List Char :=
  joinLines (trimBlank (dedent (lines (unescapeQuotes body))))

/-- The value of a string literal with its triple quotes. -/
def read (literal : List Char) : List Char :=
  decode ((literal.drop 3).take (literal.length - 6))

/-! ### Writing -/

/-- One line of a body: an empty line gets no indentation. -/
def encodeLine (indent line : List Char) : List Char :=
  if line = [] then ['\n'] else indent ++ escapeQuotes line ++ ['\n']

def tripleQuote : List Char := ['"', '"', '"']

/-- A string literal with its triple quotes, each line of the value on a line of its own. -/
def write (indent value : List Char) : List Char :=
  tripleQuote ++ '\n' :: (lines value).flatMap (encodeLine indent) ++ indent ++ tripleQuote

end SchemaLang.Block
