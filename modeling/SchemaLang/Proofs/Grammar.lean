import Mathlib.Computability.Language
import SchemaLang.DirectiveLocation
import SchemaLang.Token
import SchemaLang.TypeRef

/-! The grammar of schema texts, as languages over tokens: unions, products and stars of
single tokens, with types and values, which contain themselves, as inductive predicates.
A keyword is a name as well, so a word of the grammar says what its tokens are by where they
stand. For types and values the equations that define them follow. -/

namespace SchemaLang.Grammar

open scoped Computability

/-! ### Tokens and their combinations -/

/-- One token with the property `p`. -/
def one (p : Token → Prop) : Language Token := {ts | ∃ t, p t ∧ ts = [t]}

def kind (k : TokenKind) : Language Token := one fun t => t.kind = k

def mark (m : Mark) : Language Token := kind (.mark m)

def word (w : Keyword) : Language Token := kind (.keyword w)

/-- A word of `L`, or nothing. -/
def optional (L : Language Token) : Language Token := L + 1

/-- Words of `L`, none or more, between two marks. -/
def group (l r : Mark) (L : Language Token) : Language Token := mark l * (L∗ * mark r)

/-- Words of `L`, one or more, with a mark between each two. -/
def separated (m : Mark) (L : Language Token) : Language Token := L * (mark m * L)∗

/-! ### Names, types and values -/

/-- An identifier or any keyword. -/
def name : Language Token := one fun t => t.kind.isName

/-- A string of either form, or nothing. -/
def description : Language Token := optional (one fun t => t.kind.isString)

/-- A name or a type in brackets, with an exclamation mark or without. -/
inductive IsType : List Token → Prop where
  | name {n b : List Token} (hn : n ∈ name) (hb : b ∈ optional (mark .bang)) : IsType (n ++ b)
  | list {l t r b : List Token} (hl : l ∈ mark .lbracket) (ht : IsType t)
      (hr : r ∈ mark .rbracket) (hb : b ∈ optional (mark .bang)) : IsType (l ++ (t ++ r) ++ b)

def type : Language Token := {ts | IsType ts}

/-- A number, a string, one of the three constants, or any other name. -/
def atom : Language Token := one fun t =>
  t.kind = .int ∨ t.kind = .float ∨ t.kind.isString ∨ t.kind.isName

/-- A token that is a value by itself, values in brackets, or names with values in braces. -/
inductive IsValue : List Token → Prop where
  | atom {a : List Token} (ha : a ∈ atom) : IsValue a
  | list {l r : List Token} (vs : List (List Token)) (hl : l ∈ mark .lbracket)
      (hv : ∀ v ∈ vs, IsValue v) (hr : r ∈ mark .rbracket) : IsValue (l ++ (vs.flatten ++ r))
  | object {l r : List Token} (es : List (List Token × List Token)) (hl : l ∈ mark .lbrace)
      (hn : ∀ e ∈ es, e.1 ∈ name * mark .colon) (hv : ∀ e ∈ es, IsValue e.2)
      (hr : r ∈ mark .rbrace) : IsValue (l ++ ((es.map fun e => e.1 ++ e.2).flatten ++ r))

def value : Language Token := {ts | IsValue ts}

/-- A name, a colon and a value. -/
def entry : Language Token := name * (mark .colon * value)

/-! ### Parts of definitions -/

/-- Applied directives, none or more. -/
def directives : Language Token :=
  (mark .atSign * (name * optional (group .lparen .rparen entry)))∗

/-- An argument or an input field. -/
def inputValue : Language Token :=
  description * (name * (mark .colon * (type * (optional (mark .equals * value) * directives))))

def argumentDefinitions : Language Token := optional (group .lparen .rparen inputValue)

def field : Language Token :=
  description * (name * (argumentDefinitions * (mark .colon * (type * directives))))

def interfaces : Language Token :=
  optional (word .implements * (optional (mark .amp) * separated .amp name))

def fields : Language Token := optional (group .lbrace .rbrace field)

def members : Language Token :=
  optional (mark .equals * (optional (mark .pipe) * separated .pipe name))

/-- Any name but `true`, `false` and `null`, with a description before it or none. -/
def enumValue : Language Token :=
  description * (one (fun t => t.kind.isName ∧ ¬ t.kind.isConstant) * directives)

def enumValues : Language Token := optional (group .lbrace .rbrace enumValue)

def inputFields : Language Token := optional (group .lbrace .rbrace inputValue)

def rootOperation : Language Token :=
  (word .query + word .mutation + word .subscription) * (mark .colon * name)

/-- An identifier that names a directive location. -/
def location : Language Token :=
  one fun t => t.kind = .ident ∧ ∃ l : DirectiveLocation, l.text = t.text

/-! ### Statements and documents -/

/-- What a type definition says after its name. -/
def typeBody : TypeKind → Language Token
  | .scalar => directives
  | .object | .interface => interfaces * (directives * fields)
  | .union => directives * members
  | .enum => directives * enumValues
  | .input => directives * inputFields

/-- What a statement says after the keyword that it begins with. -/
def afterKeyword : StatementKind → Language Token
  | .schema => directives * group .lbrace .rbrace rootOperation
  | .directive =>
    mark .atSign * (name * (argumentDefinitions * (optional (word .repeatable) *
      (word .on * (optional (mark .pipe) * separated .pipe location)))))
  | .scalar => name * typeBody .scalar
  | .object => name * typeBody .object
  | .interface => name * typeBody .interface
  | .union => name * typeBody .union
  | .enum => name * typeBody .enum
  | .input => name * typeBody .input

def statement : Language Token :=
  word .schema * afterKeyword .schema + word .directive * afterKeyword .directive +
    word .type * afterKeyword .object + word .interface * afterKeyword .interface +
    word .union * afterKeyword .union + word .enum * afterKeyword .enum +
    word .input * afterKeyword .input + word .scalar * afterKeyword .scalar

/-- Statements, none or more, each with a description before it or none. -/
def document : Language Token := (description * statement)∗

/-! ### Types and values by their equations -/

theorem type_eq :
    type = (mark .lbracket * (type * mark .rbracket) + name) * optional (mark .bang) := by
  ext ts
  rw [Language.mem_mul]
  constructor
  · rintro (⟨hn, hb⟩ | ⟨hl, ht, hr, hb⟩)
    · exact ⟨_, .inr hn, _, hb, rfl⟩
    · exact ⟨_, .inl ⟨_, hl, _, ⟨_, ht, _, hr, rfl⟩, rfl⟩, _, hb, rfl⟩
  · rintro ⟨_, ⟨_, hl, _, ⟨_, ht, _, hr, rfl⟩, rfl⟩ | hn, _, hb, rfl⟩
    · exact .list hl ht hr hb
    · exact .name hn hb

/-- The names with values of an object, taken apart and put together. -/
theorem mem_entries_iff {ts : List Token} :
    ts ∈ entry∗ ↔ ∃ es : List (List Token × List Token), (∀ e ∈ es, e.1 ∈ name * mark .colon) ∧
      (∀ e ∈ es, IsValue e.2) ∧ ts = (es.map fun e => e.1 ++ e.2).flatten := by
  rw [Language.mem_kstar]
  constructor
  · rintro ⟨ws, rfl, hw⟩
    induction ws with
    | nil => exact ⟨[], by simp, by simp, rfl⟩
    | cons w ws ih =>
      obtain ⟨es, hn, hv, hes⟩ := ih fun y hy => hw y (List.mem_cons_of_mem _ hy)
      obtain ⟨n, hnw, _, ⟨c, hc, v, hvw, rfl⟩, rfl⟩ := hw w List.mem_cons_self
      refine ⟨(n ++ c, v) :: es, ?_, ?_, by simp [hes]⟩
      · exact List.forall_mem_cons.mpr ⟨⟨n, hnw, c, hc, rfl⟩, hn⟩
      · exact List.forall_mem_cons.mpr ⟨hvw, hv⟩
  · rintro ⟨es, hn, hv, rfl⟩
    refine ⟨es.map fun e => e.1 ++ e.2, rfl, fun y hy => ?_⟩
    obtain ⟨e, he, rfl⟩ := List.mem_map.mp hy
    obtain ⟨n, hne, c, hc, hce⟩ := hn e he
    exact ⟨n, hne, c ++ e.2, ⟨c, hc, e.2, hv e he, rfl⟩, by simp [← hce]⟩

theorem value_eq :
    value = group .lbracket .rbracket value + (group .lbrace .rbrace entry + atom) := by
  ext ts
  constructor
  · rintro (ha | ⟨vs, hl, hv, hr⟩ | ⟨es, hl, hn, hv, hr⟩)
    · exact .inr (.inr ha)
    · exact .inl ⟨_, hl, _, ⟨_, Language.mem_kstar.mpr ⟨vs, rfl, hv⟩, _, hr, rfl⟩, rfl⟩
    · exact .inr (.inl ⟨_, hl, _, ⟨_, mem_entries_iff.mpr ⟨es, hn, hv, rfl⟩, _, hr, rfl⟩, rfl⟩)
  · rintro (⟨_, hl, _, ⟨_, hv, _, hr, rfl⟩, rfl⟩ | ⟨_, hl, _, ⟨_, he, _, hr, rfl⟩, rfl⟩ | ha)
    · obtain ⟨vs, rfl, hvs⟩ := Language.mem_kstar.mp hv
      exact .list vs hl hvs hr
    · obtain ⟨es, hn, hv, rfl⟩ := mem_entries_iff.mp he
      exact .object es hl hn hv hr
    · exact .atom ha

end SchemaLang.Grammar
