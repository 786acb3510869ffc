import SchemaLang.Proofs.Rounds
import SchemaLang.Proofs.Text.Lexeme

/-! What is true of every document that was read from a text, and lets it be printed and read
again: names are words, numbers are numbers, wrappers are as they can be written, and no name
is declared twice where this is noted. -/

namespace SchemaLang

open Lexeme (Relexes)

/-- A word that may stand where a name is expected. -/
def IsName (s : String) : Prop := ∃ k, k.isName = true ∧ Relexes k s.toList

/-! ### Parts of definitions -/

namespace TypeRef

/-- A name without wrappers, bound to nothing. -/
structure IsNamed (r : TypeRef) : Prop where
  name : IsName r.name
  wrappers : r.wrappers = []
  binding : r.binding = none

/-- A name under wrappers that can be written, bound to nothing: what is never null is not put
once more under a wrapper that says so. -/
structure WellFormed (r : TypeRef) : Prop where
  name : IsName r.name
  wrappers : r.wrappers.IsChain fun a b => a = .nonNull → b ≠ .nonNull
  binding : r.binding = none

theorem IsNamed.wellFormed {r : TypeRef} (h : r.IsNamed) : r.WellFormed :=
  ⟨h.name, h.wrappers ▸ .nil, h.binding⟩

end TypeRef

/-- A value with numbers that are numbers, and names that are none of the three constants. -/
inductive Value.WellFormed : Value → Prop
  | int {text : String} (h : Relexes .int text.toList) : WellFormed (.int text)
  | float {text : String} (h : Relexes .float text.toList) : WellFormed (.float text)
  | string (value : String) : WellFormed (.string value)
  | boolean (value : Bool) : WellFormed (.boolean value)
  | null : WellFormed .null
  | enum {k : TokenKind} {name : String} (hk : k.isName = true) (hc : k.isConstant = false)
      (h : Relexes k name.toList) : WellFormed (.enum name)
  | list {items : List Value} (h : ∀ v ∈ items, WellFormed v) : WellFormed (.list items)
  | object {entries : List (String × Value)} (hn : ∀ e ∈ entries, IsName e.1)
      (hv : ∀ e ∈ entries, WellFormed e.2) : WellFormed (.object entries)

structure Argument.WellFormed (a : Argument) : Prop where
  name : IsName a.name.value
  value : a.value.WellFormed

structure Directive.WellFormed (d : Directive) : Prop where
  name : IsName d.name.value
  arguments : ∀ a ∈ d.arguments, a.WellFormed

structure InputValue.WellFormed (v : InputValue) : Prop where
  name : IsName v.name.value
  type : v.type.WellFormed
  defaultValue : ∀ d ∈ v.defaultValue, d.WellFormed
  directives : ∀ d ∈ v.directives, d.WellFormed

/-- Declared arguments, no name twice. -/
structure InputValue.AreArguments (args : List InputValue) : Prop where
  wellFormed : ∀ a ∈ args, a.WellFormed
  distinct : (args.map (·.name.value)).Nodup

structure Field.WellFormed (f : Field) : Prop where
  name : IsName f.name.value
  arguments : InputValue.AreArguments f.arguments
  type : f.type.WellFormed
  directives : ∀ d ∈ f.directives, d.WellFormed

structure EnumValue.WellFormed (v : EnumValue) : Prop where
  name : ∃ k, k.isName = true ∧ k.isConstant = false ∧ Relexes k v.name.value.toList
  directives : ∀ d ∈ v.directives, d.WellFormed

/-! ### Definitions -/

/-- Named interfaces, no name twice. -/
structure TypeRef.AreInterfaces (rs : List TypeRef) : Prop where
  named : ∀ r ∈ rs, r.IsNamed
  distinct : (rs.map (·.name)).Nodup

structure FieldSet.WellFormed (b : FieldSet) : Prop where
  interfaces : TypeRef.AreInterfaces b.interfaces
  keyed : b.fields.KeyedBy (·.name.value)
  fields : ∀ f ∈ b.fields.values, f.WellFormed

def TypeBody.WellFormed : TypeBody → Prop
  | scalar => True
  | object b | interface b => b.WellFormed
  | union rs => ∀ r ∈ rs, r.IsNamed
  | enum vs => ∀ v ∈ vs, v.WellFormed
  | input fs => fs.KeyedBy (·.name.value) ∧ ∀ v ∈ fs.values, v.WellFormed

structure TypeDefinition.WellFormed (t : TypeDefinition) : Prop where
  name : IsName t.name.value
  directives : ∀ d ∈ t.directives, d.WellFormed
  body : t.body.WellFormed

structure Schema.WellFormed (s : Schema) : Prop where
  directives : ∀ d ∈ s.directives, d.WellFormed
  operations : ∀ op ∈ s.operations, op.type.IsNamed

structure DirectiveDefinition.WellFormed (v : DirectiveDefinition) : Prop where
  name : IsName v.name.value
  arguments : InputValue.AreArguments v.arguments
  locations : v.locations ≠ []

def Definition.WellFormed : Definition → Prop
  | schema s => s.WellFormed
  | directive v => v.WellFormed
  | type t => t.WellFormed

/-! ### Documents -/

structure Document.WellFormed (d : Document) : Prop where
  keyed : d.Keyed
  schema : ∀ s ∈ d.schema, s.WellFormed
  directives : ∀ v ∈ d.directives.values, v.WellFormed
  types : ∀ t ∈ d.types.values, t.WellFormed

theorem Table.mem_values_insert {α : Type} {t : Table α} {k : String} {v w : α}
    (h : w ∈ (t.insert k v).values) : w = v ∨ w ∈ t.values := by
  obtain ⟨l, hl⟩ := mem_values_iff_get?.mp h
  rw [get?_insert] at hl
  split at hl
  next => exact .inl (Option.some.inj hl).symm
  next => exact .inr (mem_values_iff_get?.mpr ⟨l, hl⟩)

namespace Document

theorem WellFormed.empty (name : String) : (empty name).WellFormed where
  keyed := .empty name
  schema := nofun
  directives := nofun
  types := nofun

theorem WellFormed.define {d : Document} (h : d.WellFormed) {v : Definition} (hv : v.WellFormed) :
    (d.define v).WellFormed := by
  have hkeyed := h.keyed.define v
  cases v with
  | schema s =>
    exact ⟨hkeyed, fun s' hs => Option.some.inj hs ▸ hv, h.directives, h.types⟩
  | directive v =>
    refine ⟨hkeyed, h.schema, fun w hw => ?_, h.types⟩
    rcases Table.mem_values_insert hw with rfl | hw
    · exact hv
    · exact h.directives w hw
  | type t =>
    refine ⟨hkeyed, h.schema, h.directives, fun u hu => ?_⟩
    rcases Table.mem_values_insert hu with rfl | hu
    · exact hv
    · exact h.types u hu

theorem WellFormed.foldl_define {d : Document} (h : d.WellFormed) {vs : List Definition}
    (hvs : ∀ v ∈ vs, v.WellFormed) : (vs.foldl Document.define d).WellFormed :=
  List.foldlRecOn vs _ h fun _ hd v hv => hd.define (hvs v hv)

end Document

end SchemaLang
