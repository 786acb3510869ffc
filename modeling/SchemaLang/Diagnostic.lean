import SchemaLang.Token

/-! Diagnostics: what is wrong with a text and where. A diagnostic keeps its cause; class,
phase, code, severity and wording follow from the cause. -/

namespace SchemaLang

/-- The step of loading a text that finds a problem. -/
inductive Phase where
  /-- Reading the text. -/
  | parse
  /-- Finding what the names stand for. -/
  | resolve
  /-- Comparing objects with their interfaces. -/
  | conformance
  deriving DecidableEq, Repr

def Phase.text : Phase → String
  | parse => "parse"
  | resolve => "resolve"
  | conformance => "conformance"

inductive DiagnosticClass where
  /-- The text is not of the language. -/
  | form
  /-- A statement repeats itself. -/
  | structural
  /-- A name stands for nothing, or for the wrong kind of type. -/
  | reference
  /-- An object lacks fields of an interface. -/
  | conformance
  deriving DecidableEq, Repr

def DiagnosticClass.phase : DiagnosticClass → Phase
  | form => .parse
  | structural => .parse
  | reference => .resolve
  | conformance => .conformance

inductive Severity where
  /-- Reading stopped here. -/
  | fatal
  | error
  deriving DecidableEq, Repr

/-! ### Causes -/

/-- What a statement could go on with. -/
inductive Expectation where
  | token (kind : TokenKind)
  | name
  | operationType
  | directiveLocation
  | enumValue
  | value
  deriving DecidableEq, Repr

def Expectation.text : Expectation → String
  | token k => "\"" ++ k.text ++ "\""
  | name => "name"
  | operationType => "an operation type"
  | directiveLocation => "a directive location"
  | enumValue => "an enum value"
  | value => "a value"

/-- Why a statement cannot be read on. -/
inductive Fault where
  /-- Something else was expected than what was found. -/
  | expected (what : Expectation) (found : String)
  /-- A word that names no directive location. -/
  | unknownLocation (word : String)
  /-- Any other fault, in words. -/
  | other (message : String)
  deriving DecidableEq, Repr

def Fault.text : Fault → String
  | expected what found => "Expected " ++ what.text ++ ", found \"" ++ found ++ "\""
  | unknownLocation word => "Unknown directive location \"" ++ word ++ "\""
  | other message => message

/-- What a diagnostic reports. -/
inductive Cause where
  /-- A statement breaks off. -/
  | malformed (fault : Fault)
  /-- A token where a statement should begin and none does. -/
  | notAStatement (found : String)
  /-- An interface named twice by one type. -/
  | duplicateInterface
  /-- A field or argument declared twice. -/
  | duplicateField (name : String)
  /-- A name of no type, neither here nor in the context document. -/
  | undefinedType (name document : String)
  /-- An interface was promised and the type of that name is none. -/
  | notAnInterface (name : String)
  /-- Fields of an interface that a type lacks or declares otherwise. -/
  | missingFields (type interface : String) (missing : List String)
  /-- Any other problem, with its class, code and words. -/
  | other (kind : DiagnosticClass) (code message : String)
  deriving DecidableEq, Repr

namespace Cause

def kind : Cause → DiagnosticClass
  | malformed _ => .form
  | notAStatement _ => .form
  | duplicateInterface => .structural
  | duplicateField _ => .structural
  | undefinedType _ _ => .reference
  | notAnInterface _ => .reference
  | missingFields _ _ _ => .conformance
  | other k _ _ => k

def severity : Cause → Severity
  | notAStatement _ => .fatal
  | _ => .error

/-- The code that stays the same from one wording to the next. -/
def code : Cause → String
  | notAStatement _ => "E0002"
  | malformed _ => "E0003"
  | duplicateInterface => "E0004"
  | duplicateField _ => "E0005"
  | undefinedType _ _ => "E0010"
  | notAnInterface _ => "E0011"
  | missingFields _ _ _ => "E0020"
  | other _ c _ => c

def quote (s : String) : String := "\"" ++ s ++ "\""

/-- The wording of a cause at a position. -/
def message (p : Position) : Cause → String
  | malformed fault => fault.text ++ " at " ++ p.text
  | notAStatement found =>
    "Parse aborted. " ++ quote found ++ " is not a statement keyword at line: " ++
      toString p.line ++ ", column: " ++ toString p.column
  | duplicateInterface => "Duplicate interface name at " ++ p.text
  | duplicateField name => "Duplicate field name " ++ quote name ++ " at " ++ p.text
  | undefinedType name document =>
    quote name ++ " does not exist in document " ++ quote document ++ " at " ++ p.text
  | notAnInterface name => quote name ++ " is not an interface type, at " ++ p.text
  | missingFields type interface missing =>
    "Type " ++ quote type ++ " does not implement interface " ++ quote interface ++
      ", missing " ++ " ".intercalate (missing.map quote)
  | other _ _ m => m

end Cause

/-! ### Diagnostics -/

/-- A cause, and the token at which it was found. -/
structure Diagnostic where
  cause : Cause
  location : Location
  deriving DecidableEq, Repr

/-- A diagnostic made ready for display beside its text. -/
structure Report where
  text : String
  code : String
  severity : String
  help : Option String
  label : String
  span : Span
  deriving DecidableEq, Repr

namespace Diagnostic

def kind (d : Diagnostic) : DiagnosticClass := d.cause.kind

def phase (d : Diagnostic) : Phase := d.kind.phase

def severity (d : Diagnostic) : Severity := d.cause.severity

def code (d : Diagnostic) : String := d.cause.code

def message (d : Diagnostic) : String := d.cause.message d.location.position

def isFatal (d : Diagnostic) : Bool := d.severity == .fatal

/-- Do two diagnostics tell the same, whatever their causes? -/
def tellsSame (d e : Diagnostic) : Bool :=
  d.severity == e.severity && d.kind == e.kind && d.code == e.code && d.message == e.message &&
    d.location == e.location

/-- The words beside the marked piece of text. -/
def label (d : Diagnostic) : String :=
  match d.kind with
  | .form => "syntax error"
  | .structural => "duplicate"
  | .reference => "unresolved"
  | .conformance => "declared here"

/-- A report knows one level of severity, so a fatal diagnostic is told apart by its help. -/
def report (d : Diagnostic) : Report where
  text := d.message
  code := d.code
  severity := "Error"
  help := if d.isFatal then some "parsing stopped at this token" else none
  label := d.label
  span := d.location.span

end Diagnostic

/-- Diagnostics in the order in which they were found. -/
abbrev Diagnostics := List Diagnostic

namespace Diagnostics

def hasFatal (ds : Diagnostics) : Bool := ds.any (·.isFatal)

def hasClass (ds : Diagnostics) (k : DiagnosticClass) : Bool := ds.any (·.kind == k)

/-- The diagnostics of one phase. -/
def inPhase (ds : Diagnostics) (p : Phase) : Diagnostics := ds.filter (·.phase == p)

def messages (ds : Diagnostics) : List String := ds.map (·.message)

end Diagnostics

end SchemaLang
