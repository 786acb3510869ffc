/-! The places where a directive may be applied: parts of a schema text, and parts of
a request. -/

namespace SchemaLang

inductive DirectiveLocation where
  | schema | scalar | object | fieldDefinition | argumentDefinition | interface | union | enum
  | enumValue | inputObject | inputFieldDefinition
  | query | mutation | subscription | field | fragmentDefinition | fragmentSpread
  | inlineFragment | variableDefinition
  deriving DecidableEq, Repr

namespace DirectiveLocation

def text : DirectiveLocation → String
  | schema => "SCHEMA"
  | scalar => "SCALAR"
  | object => "OBJECT"
  | fieldDefinition => "FIELD_DEFINITION"
  | argumentDefinition => "ARGUMENT_DEFINITION"
  | interface => "INTERFACE"
  | union => "UNION"
  | enum => "ENUM"
  | enumValue => "ENUM_VALUE"
  | inputObject => "INPUT_OBJECT"
  | inputFieldDefinition => "INPUT_FIELD_DEFINITION"
  | query => "QUERY"
  | mutation => "MUTATION"
  | subscription => "SUBSCRIPTION"
  | field => "FIELD"
  | fragmentDefinition => "FRAGMENT_DEFINITION"
  | fragmentSpread => "FRAGMENT_SPREAD"
  | inlineFragment => "INLINE_FRAGMENT"
  | variableDefinition => "VARIABLE_DEFINITION"

def all : List DirectiveLocation :=
  [schema, scalar, object, fieldDefinition, argumentDefinition, interface, union, enum, enumValue,
    inputObject, inputFieldDefinition, query, mutation, subscription, field, fragmentDefinition,
    fragmentSpread, inlineFragment, variableDefinition]

/-- The location written `s`. -/
def ofText? (s : String) : Option DirectiveLocation := all.find? (·.text == s)

theorem ofText?_text (l : DirectiveLocation) : ofText? l.text = some l := by cases l <;> decide

theorem text_of_ofText? {s : String} {l : DirectiveLocation} (h : ofText? s = some l) :
    l.text = s := by
  simpa using List.find?_some h

end DirectiveLocation

end SchemaLang
