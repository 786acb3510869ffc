import SchemaLang.Reader.Constant

/-! Readers for definitions. A name that repeats among interfaces, fields or arguments is
noted and left out, and reading goes on. -/

namespace SchemaLang.Reader

variable {α : Type}

/-! ### Repeated names -/

/-- A named item added to a table. If the name is taken the item is noted and left out. -/
def addOnce (table : Table α) (n : Name) (item : α) : Reader (Table α) := do
  if table.contains n.value then
    note ⟨.duplicateField n.value, n.location⟩
    return table
  return table.insert n.value item

/-- An argument added to the others. If its name is taken it is noted and left out. -/
def addArgument (args : List InputValue) (arg : InputValue) : Reader (List InputValue) := do
  if args.any (·.name.value == arg.name.value) then
    note ⟨.duplicateField arg.name.value, arg.name.location⟩
    return args
  return args ++ [arg]

/-- An interface added to the others. If it was named before it is noted and left out. -/
def addInterface (interfaces : List TypeRef) (r : TypeRef) : Reader (List TypeRef) := do
  if interfaces.any (·.name == r.name) then
    note ⟨.duplicateInterface, r.location⟩
    return interfaces
  return interfaces ++ [r]

/-! ### Fields and arguments -/

/-- An argument or a field of an input type. -/
def inputValue : Reader InputValue := do
  let description ← description
  let name ← name
  expect (.mark .colon)
  let type ← typeRef
  let defaultValue ← if ← accept (.mark .equals) then some <$> value else pure none
  return { description, name, type, defaultValue, directives := ← directives }

/-- Declared arguments in parentheses, if there are parentheses. -/
def argumentDefinitions : Reader (List InputValue) := do
  if ← accept (.mark .lparen) then
    untilMark .rparen (fun args => do addArgument args (← inputValue)) []
  else return []

def field : Reader Field := do
  let description ← description
  let name ← name
  let arguments ← argumentDefinitions
  expect (.mark .colon)
  let type ← typeRef
  return { description, name, arguments, type, directives := ← directives }

/-- Fields in braces, if there are braces. -/
def fields : Reader (Table Field) := do
  if ← accept (.mark .lbrace) then
    untilMark .rbrace (fun table => do
      let f ← field
      addOnce table f.name f) ∅
  else return ∅

/-- Input fields in braces, if there are braces. -/
def inputFields : Reader (Table InputValue) := do
  if ← accept (.mark .lbrace) then
    untilMark .rbrace (fun table => do
      let f ← inputValue
      addOnce table f.name f) ∅
  else return ∅

/-- The interfaces of an object or interface, if there is the clause for them. -/
def interfaces : Reader (List TypeRef) := do
  if ← accept (.keyword .implements) then
    let _ ← accept (.mark .amp)
    let first ← addInterface [] (← typeName)
    whileMark .amp (fun others => do addInterface others (← typeName)) first
  else return []

/-! ### Types -/

/-- What objects and interfaces say after their names. -/
def fieldSet : Reader (List Directive × FieldSet) := do
  let interfaces ← interfaces
  let directives ← directives
  return (directives, { interfaces, fields := ← fields })

/-- The members of a union, if there is an equals sign. -/
def members : Reader (List TypeRef) := do
  if ← accept (.mark .equals) then
    let _ ← accept (.mark .pipe)
    separated .pipe typeName
  else return []

/-- The three constants cannot name an enum value. -/
def enumValueName : Reader Name := do
  if (← look).any (·.kind.isConstant) then miss .enumValue
  else name

def enumValue : Reader EnumValue := do
  let description ← description
  let name ← enumValueName
  return { description, name, directives := ← directives }

/-- Enum values in braces, if there are braces. -/
def enumValues : Reader (List EnumValue) := do
  if ← accept (.mark .lbrace) then
    untilMark .rbrace (fun values => do return values ++ [← enumValue]) []
  else return []

/-- What a type definition says after its name. -/
def typeBody : TypeKind → Reader (List Directive × TypeBody)
  | .scalar => do return (← directives, .scalar)
  | .object => do
    let (directives, body) ← fieldSet
    return (directives, .object body)
  | .interface => do
    let (directives, body) ← fieldSet
    return (directives, .interface body)
  | .union => do return (← directives, .union (← members))
  | .enum => do return (← directives, .enum (← enumValues))
  | .input => do return (← directives, .input (← inputFields))

/-- A type definition after its keyword. -/
def typeDefinition (description : Option String) (kind : TypeKind) : Reader TypeDefinition := do
  let name ← name
  let (directives, body) ← typeBody kind
  return { description, name, directives, body }

/-! ### Other definitions -/

def operationKind : Reader OperationKind :=
  take .operationType fun t =>
    match t.kind with
    | .keyword .query => some .query
    | .keyword .mutation => some .mutation
    | .keyword .subscription => some .subscription
    | _ => none

def rootOperation : Reader RootOperation := do
  let kind ← operationKind
  expect (.mark .colon)
  return { kind, type := ← typeName }

/-- The schema after its keyword. -/
def schema (description : Option String) : Reader Schema := do
  let directives ← directives
  expect (.mark .lbrace)
  let operations ← untilMark .rbrace (fun ops => do return ops ++ [← rootOperation]) []
  return { description, directives, operations }

/-- A directive location. A word that names none is a fault of its own. -/
def directiveLocation : Reader DirectiveLocation := do
  match ← look with
  | some t =>
    if t.kind = .ident then
      match DirectiveLocation.ofText? t.text with
      | some l => skip; return l
      | none => fail (.unknownLocation t.text)
    else miss .directiveLocation
  | none => miss .directiveLocation

/-- A directive definition after its keyword. -/
def directiveDefinition (description : Option String) : Reader DirectiveDefinition := do
  expect (.mark .atSign)
  let name ← name
  let arguments ← argumentDefinitions
  let repeatable ← accept (.keyword .repeatable)
  expect (.keyword .on)
  let _ ← accept (.mark .pipe)
  let locations ← separated .pipe directiveLocation
  return { description, name, arguments, repeatable, locations }

/-- A definition after the keyword that says of which kind it is. -/
def definition (description : Option String) : StatementKind → Reader Definition
  | .schema => .schema <$> schema description
  | .directive => .directive <$> directiveDefinition description
  | .scalar => .type <$> typeDefinition description .scalar
  | .object => .type <$> typeDefinition description .object
  | .interface => .type <$> typeDefinition description .interface
  | .union => .type <$> typeDefinition description .union
  | .enum => .type <$> typeDefinition description .enum
  | .input => .type <$> typeDefinition description .input

end SchemaLang.Reader
