import SchemaLang.Location

/-! The words of a schema text: keywords, punctuation marks, the kinds of tokens and
the tokens themselves. Keywords are names too; only their place in a statement makes
them special. -/

namespace SchemaLang

/-! ### Keywords -/

/-- What a statement defines: the schema, a directive, or a type of some kind. -/
inductive StatementKind where
  | schema | directive | scalar | object | interface | union | enum | input
  deriving DecidableEq, Repr

/-- The words with a meaning of their own. -/
inductive Keyword where
  | type | interface | union | enum | input | scalar | schema | directive
  | implements | repeatable | on
  | query | mutation | subscription
  | trueValue | falseValue | null
  deriving DecidableEq, Repr

namespace Keyword

def text : Keyword → String
  | type => "type"
  | interface => "interface"
  | union => "union"
  | enum => "enum"
  | input => "input"
  | scalar => "scalar"
  | schema => "schema"
  | directive => "directive"
  | implements => "implements"
  | repeatable => "repeatable"
  | on => "on"
  | query => "query"
  | mutation => "mutation"
  | subscription => "subscription"
  | trueValue => "true"
  | falseValue => "false"
  | null => "null"

def all : List Keyword :=
  [type, interface, union, enum, input, scalar, schema, directive, implements, repeatable, on,
    query, mutation, subscription, trueValue, falseValue, null]

/-- The keyword written `s`. -/
def ofText? (s : String) : Option Keyword := all.find? (·.text == s)

/-- The kind of statement that the keyword begins, if it begins one. -/
def statement? : Keyword → Option StatementKind
  | schema => some .schema
  | directive => some .directive
  | scalar => some .scalar
  | type => some .object
  | interface => some .interface
  | union => some .union
  | enum => some .enum
  | input => some .input
  | implements | repeatable | on | query | mutation | subscription
  | trueValue | falseValue | null => none

/-- Keywords that may begin a statement. -/
def startsStatement (k : Keyword) : Bool := k.statement?.isSome

theorem ofText?_text (k : Keyword) : ofText? k.text = some k := by cases k <;> decide

theorem text_of_ofText? {s : String} {k : Keyword} (h : ofText? s = some k) : k.text = s := by
  simpa using List.find?_some h

end Keyword

/-! ### Punctuation -/

inductive Mark where
  | lbrace | rbrace | lparen | rparen | lbracket | rbracket
  | colon | equals | pipe | amp | atSign | bang
  deriving DecidableEq, Repr

namespace Mark

def char : Mark → Char
  | lbrace => '\x7b'
  | rbrace => '\x7d'
  | lparen => '('
  | rparen => ')'
  | lbracket => '['
  | rbracket => ']'
  | colon => ':'
  | equals => '='
  | pipe => '|'
  | amp => '&'
  | atSign => '@'
  | bang => '!'

def text (m : Mark) : String := String.singleton m.char

def all : List Mark :=
  [lbrace, rbrace, lparen, rparen, lbracket, rbracket, colon, equals, pipe, amp, atSign, bang]

/-- The mark written `c`. -/
def ofChar? (c : Char) : Option Mark := all.find? (·.char == c)

theorem ofChar?_char (m : Mark) : ofChar? m.char = some m := by cases m <;> decide

theorem char_of_ofChar? {c : Char} {m : Mark} (h : ofChar? c = some m) : m.char = c := by
  simpa using List.find?_some h

end Mark

/-! ### Tokens -/

inductive TokenKind where
  /-- The end of the text. -/
  | eof
  /-- A character outside the language, or a literal that breaks off. -/
  | error
  | ident
  | int
  | float
  /-- A string in quotes on one line. -/
  | string
  /-- A string between triple quotes. -/
  | blockString
  | keyword (word : Keyword)
  | mark (m : Mark)
  deriving DecidableEq, Repr

namespace TokenKind

def text : TokenKind → String
  | eof => "<eof>"
  | error => "<error>"
  | ident => "<ident>"
  | int => "<int>"
  | float => "<float>"
  | string => "<string>"
  | blockString => "<block-string>"
  | keyword w => w.text
  | mark m => m.text

def isKeyword : TokenKind → Bool
  | keyword _ => true
  | _ => false

/-- Keywords serve as names wherever a name is expected. -/
def isName : TokenKind → Bool
  | ident | keyword _ => true
  | _ => false

/-- The words that are values by themselves: the two truth values and null. -/
def isConstant : TokenKind → Bool
  | keyword .trueValue | keyword .falseValue | keyword .null => true
  | _ => false

def isString : TokenKind → Bool
  | string | blockString => true
  | _ => false

/-- The kind of statement that a token of this kind begins, if it begins one. -/
def statement? : TokenKind → Option StatementKind
  | keyword w => w.statement?
  | _ => none

def startsStatement (k : TokenKind) : Bool := k.statement?.isSome

end TokenKind

/-- A piece of the text with its kind and its place. -/
structure Token where
  kind : TokenKind
  text : String
  location : Location
  deriving DecidableEq, Repr

namespace Token

def isEof (t : Token) : Bool := t.kind == .eof

/-- How a diagnostic names the token. -/
def describe (t : Token) : String := if t.isEof then TokenKind.text .eof else t.text

end Token

end SchemaLang
