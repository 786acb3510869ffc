import SchemaLang.Document.Basic
import SchemaLang.Reader.Basic
import SchemaLang.Text.Block
import SchemaLang.Text.Quoted

/-! Readers for the parts that definitions are made of: names, strings, references to
types, constant values and applied directives. -/

namespace SchemaLang

/-- The value of a string literal, for a token that is one. -/
def Token.stringValue? (t : Token) : Option String :=
  match t.kind with
  | .string => some (String.ofList (Quoted.read t.text.toList))
  | .blockString => some (String.ofList (Block.read t.text.toList))
  | _ => none

/-- The string that comes first, if one does, and the tokens behind it. -/
def splitDescription : List Token → Option String × List Token
  | [] => (none, [])
  | t :: ts =>
    match t.stringValue? with
    | some s => (some s, ts)
    | none => (none, t :: ts)

theorem splitDescription_suffix (ts : List Token) : (splitDescription ts).2 <:+ ts := by
  cases ts with
  | nil => exact List.suffix_refl _
  | cons t ts =>
    simp only [splitDescription]
    split
    · exact List.suffix_cons t ts
    · exact List.suffix_refl _

namespace Reader

variable {α : Type}

/-- A name; keywords are names too. -/
def name : Reader Name :=
  take .name fun t => if t.kind.isName then some ⟨t.text, t.location⟩ else none

/-- A name that refers to a type, without wrappers. -/
def typeName : Reader TypeRef := do
  let n ← name
  return .named n.value n.location

/-- A string, if one comes next. -/
def description : Reader (Option String) := fun ts =>
  ⟨.done (splitDescription ts).1 [] (splitDescription ts).2, splitDescription_suffix ts⟩

/-- A name, or a type in brackets, either with an exclamation mark or without. -/
def typeRef : Reader TypeRef :=
  recursive .name (fun again (_ : Unit) => do
    let inner ←
      if ← accept (.mark .lbracket) then do
        let r ← again ()
        expect (.mark .rbracket)
        pure (r.wrap .list)
      else typeName
    if ← accept (.mark .bang) then return inner.wrap .nonNull
    return inner) ()

/-- The value of a token that is a value by itself. A word that is none of the three constants
is an enum value. -/
def scalarValue? (t : Token) : Option Value :=
  match t.kind with
  | .int => some (.int t.text)
  | .float => some (.float t.text)
  | .string | .blockString => t.stringValue?.map .string
  | .keyword .trueValue => some (.boolean true)
  | .keyword .falseValue => some (.boolean false)
  | .keyword .null => some .null
  | .ident | .keyword _ => some (.enum t.text)
  | .eof | .error | .mark _ => none

/-- A name, a colon and a value. -/
def entry (value : Reader α) : Reader (Name × α) := do
  let n ← name
  expect (.mark .colon)
  return (n, ← value)

/-- A constant value. -/
def value : Reader Value :=
  recursive .value (fun again (_ : Unit) => do
    if ← accept (.mark .lbracket) then
      return .list (← untilMark .rbracket (fun items => do return items ++ [← again ()]) [])
    if ← accept (.mark .lbrace) then
      return .object (← untilMark .rbrace (fun entries => do
        let (n, v) ← entry (again ())
        return entries ++ [(n.value, v)]) [])
    take .value scalarValue?) ()

/-- The arguments of an applied directive, if there are parentheses. -/
def arguments : Reader (List Argument) := do
  if ← accept (.mark .lparen) then
    untilMark .rparen (fun args => do
      let (n, v) ← entry value
      return args ++ [⟨n, v⟩]) []
  else return []

/-- Applied directives, none or more. -/
def directives : Reader (List Directive) :=
  whileMark .atSign (fun ds => do
    let n ← name
    return ds ++ [⟨n, ← arguments⟩]) []

end Reader

end SchemaLang
