import SchemaLang.Document.Basic
import SchemaLang.Text.Block
import SchemaLang.Text.Quoted
import SchemaLang.Token

/-! Writing documents as schema texts. A document is first laid out as a list of pieces, the
lexemes of the text with the layout between them, and the text is the pieces put together.
Reading the text again gives the lexemes back, since layout separates all that would run
together. -/

namespace SchemaLang

/-! ### Pieces of text -/

/-- A lexeme, or the layout between two lexemes. -/
inductive Piece where
  /-- A name, a keyword or a number. -/
  | word (text : String)
  | mark (m : Mark)
  /-- A string in quotes. -/
  | quoted (value : String)
  /-- A string between triple quotes on lines of their own. -/
  | block (indent : List Char) (value : String)
  /-- Blanks, line feeds and commas. -/
  | layout (text : List Char)
  deriving DecidableEq, Repr

namespace Piece

def text : Piece → List Char
  | word w => w.toList
  | mark m => [m.char]
  | quoted v => Quoted.write v.toList
  | block indent v => Block.write indent v.toList
  | layout cs => cs

/-- The text of pieces put together. -/
def render (ps : List Piece) : String := String.ofList (ps.flatMap text)

def space : Piece := layout [' ']

def newline : Piece := layout ['\n']

def comma : Piece := layout [',', ' ']

/-- A blank line, for a text whose last line has not ended. -/
def blankLine : Piece := layout ['\n', '\n']

/-- Lists of pieces with a separator between each two. -/
def separate (sep : List Piece) (ps : List (List Piece)) : List Piece := sep.intercalate ps

/-- A comma between each two of one or more lists of pieces, and parentheses around them. -/
def inParentheses (ps : List (List Piece)) : List Piece :=
  if ps.isEmpty then [] else [mark .lparen] ++ separate [comma] ps ++ [mark .rparen]

/-- Lines between braces. -/
def inBraces (ls : List (List Piece)) : List Piece :=
  [space, mark .lbrace, newline] ++ ls.flatten ++ [mark .rbrace]

/-- Lines between braces, and nothing if there are no lines. -/
def inBracesIfAny (ls : List (List Piece)) : List Piece := if ls.isEmpty then [] else inBraces ls

end Piece

open Piece

/-- How the lines between braces are indented. -/
structure PrintOptions where
  indentSize : Nat := 2
  useTabs : Bool := false
  deriving DecidableEq, Repr

namespace PrintOptions

instance : Inhabited PrintOptions := ⟨{}⟩

/-- The indentation of the lines between braces. -/
def indent (o : PrintOptions) : List Char :=
  if o.useTabs then ['\t'] else List.replicate o.indentSize ' '

end PrintOptions

/-! ### Parts of definitions -/

/-- A wrapper written around what is inside. -/
def Wrapper.around (inside : List Piece) : Wrapper → List Piece
  | list => [mark .lbracket] ++ inside ++ [mark .rbracket]
  | nonNull => inside ++ [mark .bang]

namespace TypeRef

def pieces (r : TypeRef) : List Piece := r.wrappers.foldl Wrapper.around [word r.name]

/-- The written form of a reference. -/
def text (r : TypeRef) : String := render r.pieces

end TypeRef

namespace Value

mutual

def pieces : Value → List Piece
  | int text => [word text]
  | float text => [word text]
  | string value => [quoted value]
  | boolean true => [word Keyword.trueValue.text]
  | boolean false => [word Keyword.falseValue.text]
  | null => [word Keyword.null.text]
  | enum name => [word name]
  | list items => [mark .lbracket] ++ separate [comma] (itemPieces items) ++ [mark .rbracket]
  | object entries =>
    [mark .lbrace] ++ separate [comma] (entryPieces entries) ++ [mark .rbrace]

def itemPieces : List Value → List (List Piece)
  | [] => []
  | v :: vs => pieces v :: itemPieces vs

def entryPieces : List (String × Value) → List (List Piece)
  | [] => []
  | (k, v) :: es => ([word k, mark .colon, space] ++ pieces v) :: entryPieces es

end

end Value

def Argument.pieces (a : Argument) : List Piece :=
  [word a.name.value, mark .colon, space] ++ a.value.pieces

/-- An applied directive with the space before it. -/
def Directive.pieces (d : Directive) : List Piece :=
  [space, mark .atSign, word d.name.value] ++ inParentheses (d.arguments.map Argument.pieces)

/-- A description on lines of its own. It is written as a block if it has a line feed. -/
def descriptionPieces (indent : List Char) : Option String → List Piece
  | none => []
  | some d =>
    [layout indent, if d.toList.contains '\n' then block indent d else quoted d, newline]

namespace InputValue

/-- Name, type, default value and directives. -/
def pieces (v : InputValue) : List Piece :=
  [word v.name.value, mark .colon, space] ++ v.type.pieces ++
    (v.defaultValue.elim [] fun d => [space, mark .equals, space] ++ d.pieces) ++
    v.directives.flatMap Directive.pieces

/-- An argument with its description on the same line. -/
def argumentPieces (v : InputValue) : List Piece :=
  (v.description.elim [] fun d => [quoted d, space]) ++ v.pieces

/-- An input field on a line of its own. -/
def linePieces (indent : List Char) (v : InputValue) : List Piece :=
  descriptionPieces indent v.description ++ [layout indent] ++ v.pieces ++ [newline]

end InputValue

def Field.linePieces (indent : List Char) (f : Field) : List Piece :=
  descriptionPieces indent f.description ++ [layout indent, word f.name.value] ++
    inParentheses (f.arguments.map InputValue.argumentPieces) ++ [mark .colon, space] ++
    f.type.pieces ++ f.directives.flatMap Directive.pieces ++ [newline]

def EnumValue.linePieces (indent : List Char) (v : EnumValue) : List Piece :=
  descriptionPieces indent v.description ++ [layout indent, word v.name.value] ++
    v.directives.flatMap Directive.pieces ++ [newline]

def RootOperation.linePieces (indent : List Char) (op : RootOperation) : List Piece :=
  [layout indent, word op.kind.text, mark .colon, space, word op.type.name, newline]

/-! ### Definitions -/

/-- The clause for the interfaces, if there are any. -/
def interfacePieces (rs : List TypeRef) : List Piece :=
  if rs.isEmpty then []
  else [space, word Keyword.implements.text, space] ++
    separate [space, mark .amp, space] (rs.map fun r => [word r.name])

/-- The members of a union, if there are any. -/
def memberPieces (rs : List TypeRef) : List Piece :=
  if rs.isEmpty then []
  else [space, mark .equals, space] ++
    separate [space, mark .pipe, space] (rs.map fun r => [word r.name])

/-- What a type definition says between its name and its directives, and after them. -/
def TypeBody.pieces (indent : List Char) : TypeBody → List Piece × List Piece
  | scalar => ([], [])
  | object b | interface b =>
    (interfacePieces b.interfaces, inBracesIfAny (b.fields.values.map (Field.linePieces indent)))
  | union rs => ([], memberPieces rs)
  | enum vs => ([], inBracesIfAny (vs.map (EnumValue.linePieces indent)))
  | input fs => ([], inBracesIfAny (fs.values.map (InputValue.linePieces indent)))

def TypeDefinition.pieces (indent : List Char) (d : TypeDefinition) : List Piece :=
  descriptionPieces [] d.description ++ [word d.kind.text, space, word d.name.value] ++
    (d.body.pieces indent).1 ++ d.directives.flatMap Directive.pieces ++ (d.body.pieces indent).2

/-- The braces of a schema are written even if there is nothing between them. -/
def Schema.pieces (indent : List Char) (s : Schema) : List Piece :=
  descriptionPieces [] s.description ++ [word Keyword.schema.text] ++
    s.directives.flatMap Directive.pieces ++
    inBraces (s.operations.map (RootOperation.linePieces indent))

def DirectiveDefinition.pieces (d : DirectiveDefinition) : List Piece :=
  descriptionPieces [] d.description ++
    [word Keyword.directive.text, space, mark .atSign, word d.name.value] ++
    inParentheses (d.arguments.map InputValue.argumentPieces) ++
    (if d.repeatable then [space, word Keyword.repeatable.text] else []) ++
    [space, word Keyword.on.text, space] ++
    separate [space, mark .pipe, space] (d.locations.map fun l => [word l.text])

/-! ### Documents -/

namespace Document

/-- The schema, the directive definitions and the types, with blank lines between them. -/
def pieces (o : PrintOptions) (d : Document) : List Piece :=
  separate [blankLine]
    ((d.schema.map (Schema.pieces o.indent)).toList ++
      d.directives.values.map DirectiveDefinition.pieces ++
      d.types.values.map (TypeDefinition.pieces o.indent))

/-- The schema text of a document. -/
def print (d : Document) (o : PrintOptions) : String := render (d.pieces o)

end Document

end SchemaLang
