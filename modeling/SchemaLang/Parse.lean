import SchemaLang.Cursor
import SchemaLang.Document.Reference
import SchemaLang.Reader.Definition

/-! Reading a text into a document. A statement that gets stuck is given up and reading goes
on behind it; only a token that begins no statement, where a statement should begin, ends
the reading. Either way, what was read before stays. -/

namespace SchemaLang

/-! ### Giving up a statement -/

/-- The braces that are open after some tokens, when `depth` were open before. -/
def openBraces (depth : Nat) (ts : List Token) : Nat :=
  ts.foldl (fun n t =>
    match t.kind with
    | .mark .lbrace => n + 1
    | .mark .rbrace => n - 1
    | _ => n) depth

/-- The tokens behind a statement that was given up with `depth` braces open: from a keyword
outside braces that begins a statement, or behind the brace after which none is open. -/
def skipStatement (depth : Nat) : List Token → List Token
  | [] => []
  | t :: ts =>
    if depth = 0 ∧ t.kind.startsStatement then t :: ts
    else match t.kind with
      | .mark .lbrace => skipStatement (depth + 1) ts
      | .mark .rbrace => if depth ≤ 1 then ts else skipStatement (depth - 1) ts
      | _ => skipStatement depth ts

theorem skipStatement_suffix (depth : Nat) (ts : List Token) : skipStatement depth ts <:+ ts := by
  induction ts generalizing depth with
  | nil => exact List.suffix_refl _
  | cons t ts ih =>
    unfold skipStatement
    split
    · exact List.suffix_refl _
    · split
      · exact (ih _).trans (List.suffix_cons t ts)
      · split
        · exact List.suffix_cons t ts
        · exact (ih _).trans (List.suffix_cons t ts)
      · exact (ih _).trans (List.suffix_cons t ts)

/-- The tokens behind a statement that begins with `ts` and got stuck at `rest`. -/
def resume (ts rest : List Token) : List Token :=
  skipStatement (openBraces 0 (ts.take (ts.length - rest.length))) rest

/-! ### Statements -/

/-- What one round of reading comes to. -/
inductive Item where
  /-- A definition, and the repetitions noted in it. -/
  | defined (definition : Definition) (found : Diagnostics)
  /-- A statement that was given up, and why. -/
  | givenUp (found : Diagnostics)
  /-- Something that is no statement. -/
  | stopped (why : Diagnostic)

namespace Item

def definition? : Item → Option Definition
  | defined d _ => some d
  | givenUp _ | stopped _ => none

def found : Item → Diagnostics
  | defined _ ds => ds
  | givenUp ds => ds
  | stopped d => [d]

def isStop : Item → Bool
  | stopped _ => true
  | defined _ _ | givenUp _ => false

end Item

/-- The location at which the diagnostics of a stuck reader are placed: that of the next token,
or of the end of the text. -/
def nextLocation (stop : Token) (ts : List Token) : Location := (ts.head?.getD stop).location

/-- The diagnostics of a statement that got stuck, the fault that stopped it being the last. -/
def stuckDiagnostics (stop : Token) (fault : Fault) (found : Diagnostics) (rest : List Token) :
    Diagnostics :=
  found ++ [⟨.malformed fault, nextLocation stop rest⟩]

/-- The rounds of reading `ts`, behind which stands the token `stop` for the end. -/
def items (stop : Token) (ts : List Token) : List Item :=
  if ts = [] then []
  else
    match _h : (splitDescription ts).2 with
    | [] => [.stopped ⟨.notAStatement (Reader.describeNext []), stop.location⟩]
    | t :: rest =>
      match t.kind.statement? with
      | none => [.stopped ⟨.notAStatement t.describe, t.location⟩]
      | some kind =>
        match Reader.definition (splitDescription ts).1 kind rest with
        | ⟨.done d found rest', _le⟩ => .defined d found :: items stop rest'
        | ⟨.stuck fault found rest', _le⟩ =>
          .givenUp (stuckDiagnostics stop fault found rest') :: items stop (resume (t :: rest) rest')
termination_by ts.length
decreasing_by
  · have := (splitDescription_suffix ts).length_le
    have := _le.length_le
    simp_all [Outcome.rest]
    omega
  · have := (splitDescription_suffix ts).length_le
    have := (skipStatement_suffix
      (openBraces 0 ((t :: rest).take ((t :: rest).length - rest'.length))) rest').length_le
    have := _le.length_le
    simp_all [Outcome.rest, resume]
    omega

/-! ### Documents -/

/-- What a text was read into. -/
structure Parsed where
  document : Document
  /-- Everything found, in the order in which it was found. -/
  diagnostics : Diagnostics
  /-- Did reading stop before the end of the text? -/
  aborted : Bool

namespace Parsed

/-- The sites of the references in the document, all of them unbound. -/
def sites (p : Parsed) : List RefSite := p.document.sites

/-- The document of the rounds of reading. -/
def ofItems (name : String) (rounds : List Item) : Parsed where
  document := (rounds.filterMap Item.definition?).foldl Document.define (.empty name)
  diagnostics := rounds.flatMap Item.found
  aborted := rounds.any Item.isStop

end Parsed

/-- Reads tokens into a document. -/
def Tokens.parse (ts : Tokens) (name : String) : Parsed := .ofItems name (items ts.stop ts.words)

/-- Reads a text into a document of the given name. -/
def parse (source name : String) : Parsed := (Tokens.ofString source).parse name

end SchemaLang
