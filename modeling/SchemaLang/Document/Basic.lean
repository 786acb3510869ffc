import SchemaLang.DirectiveLocation
import SchemaLang.Table
import SchemaLang.TypeRef
import SchemaLang.Value

/-! Documents: definitions of types and directives under their names, in the order of
declaration, and at most one schema. -/

namespace SchemaLang

/-! ### Parts of definitions -/

/-- A name and its place. -/
structure Name where
  value : String
  location : Location
  deriving Repr

/-- A named value handed to a directive. -/
structure Argument where
  name : Name
  value : Value

/-- A directive as it is applied to a part of a schema. -/
structure Directive where
  name : Name
  arguments : List Argument

/-- An argument of a field or directive, or a field of an input type. -/
structure InputValue where
  description : Option String
  name : Name
  type : TypeRef
  defaultValue : Option Value
  directives : List Directive

structure Field where
  description : Option String
  name : Name
  arguments : List InputValue
  type : TypeRef
  directives : List Directive

structure EnumValue where
  description : Option String
  name : Name
  directives : List Directive

/-! ### Type definitions -/

/-- What objects and interfaces have in common: fields, and interfaces that they promise to
have the fields of. -/
structure FieldSet where
  interfaces : List TypeRef
  fields : Table Field

/-- What a type definition says after its name. -/
inductive TypeBody where
  | scalar
  | object (body : FieldSet)
  | interface (body : FieldSet)
  | union (members : List TypeRef)
  | enum (values : List EnumValue)
  | input (fields : Table InputValue)

namespace TypeBody

def kind : TypeBody → TypeKind
  | scalar => .scalar
  | object _ => .object
  | interface _ => .interface
  | union _ => .union
  | enum _ => .enum
  | input _ => .input

/-- The fields and interfaces of an object or interface. -/
def fieldSet? : TypeBody → Option FieldSet
  | object b => some b
  | interface b => some b
  | scalar | union _ | enum _ | input _ => none

end TypeBody

structure TypeDefinition where
  description : Option String
  name : Name
  directives : List Directive
  body : TypeBody

namespace TypeDefinition

def kind (d : TypeDefinition) : TypeKind := d.body.kind

def position (d : TypeDefinition) : Position := d.name.location.position

/-- The fields that the type answers, for an object or interface. -/
def fields? (d : TypeDefinition) : Option (Table Field) := d.body.fieldSet?.map (·.fields)

/-- The interfaces named by an object or interface. -/
def interfaces (d : TypeDefinition) : List TypeRef :=
  (d.body.fieldSet?.map (·.interfaces)).getD []

end TypeDefinition

/-! ### Other definitions -/

inductive OperationKind where
  | query | mutation | subscription
  deriving DecidableEq, Repr

def OperationKind.text : OperationKind → String
  | query => "query"
  | mutation => "mutation"
  | subscription => "subscription"

/-- The type at which requests of one kind begin. -/
structure RootOperation where
  kind : OperationKind
  type : TypeRef

structure Schema where
  description : Option String
  directives : List Directive
  operations : List RootOperation

structure DirectiveDefinition where
  description : Option String
  name : Name
  arguments : List InputValue
  repeatable : Bool
  locations : List DirectiveLocation

/-- What one statement defines. -/
inductive Definition where
  | schema (schema : Schema)
  | directive (directive : DirectiveDefinition)
  | type (type : TypeDefinition)

/-! ### Documents -/

structure Document where
  name : String
  schema : Option Schema
  directives : Table DirectiveDefinition
  types : Table TypeDefinition

namespace Document

/-- A document that defines nothing. -/
def empty (name : String) : Document := ⟨name, none, ∅, ∅⟩

def isEmpty (d : Document) : Bool := d.types.isEmpty && d.directives.isEmpty && d.schema.isNone

/-- The type of that name. -/
def get? (d : Document) (name : String) : Option TypeDefinition := d.types.get? name

/-- A type put under a key: in its slot if there is one, else behind the others. -/
def insertUnder (d : Document) (key : String) (t : TypeDefinition) : Document :=
  { d with types := d.types.insert key t }

/-- A type put under its own name. -/
def insert (d : Document) (t : TypeDefinition) : Document := d.insertUnder t.name.value t

/-- The slot that a type of that name has, or would get. -/
def slotFor (d : Document) (name : String) : Nat := (d.types.slot? name).getD d.types.size

/-- The document without the type of that name; the others keep their order. -/
def erase (d : Document) (name : String) : Document := { d with types := d.types.erase name }

/-- A definition added to a document. Of two definitions with one name the later one stays,
in the slot of the earlier one. -/
def define (d : Document) : Definition → Document
  | .schema s => { d with schema := some s }
  | .directive v => { d with directives := d.directives.insert v.name.value v }
  | .type t => d.insert t

end Document

end SchemaLang
