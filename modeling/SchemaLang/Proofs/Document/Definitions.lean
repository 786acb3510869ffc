import SchemaLang.Proofs.Document.Relabel
import SchemaLang.Proofs.Document.WellFormed
import SchemaLang.Proofs.Pieces

/-! Documents as lists of definitions. A document is put together again from its definitions,
is printed by printing them one after the other, and gets other labels by giving them to each. -/

namespace SchemaLang

open Piece

def Definition.pieces (indent : List Char) : Definition → List Piece
  | schema s => s.pieces indent
  | directive v => v.pieces
  | type t => t.pieces indent

namespace Document

/-- The definitions of a document in the order in which they are printed. -/
def definitions (d : Document) : List Definition :=
  (d.schema.map Definition.schema).toList ++ d.directives.values.map Definition.directive ++
    d.types.values.map Definition.type

theorem pieces_eq_definitions (d : Document) (o : PrintOptions) :
    d.pieces o = separate [blankLine] (d.definitions.map (Definition.pieces o.indent)) := by
  rw [pieces, definitions, List.map_append, List.map_append, List.map_map, List.map_map]
  cases d.schema <;> rfl

theorem spellings_pieces (d : Document) (o : PrintOptions) : spellings (d.pieces o) =
    d.definitions.flatMap fun v => spellings (v.pieces o.indent) := by
  rw [pieces_eq_definitions, spellings_separate_layout rfl, List.flatMap_map]

theorem WellFormed.of_mem_definitions {d : Document} (h : d.WellFormed) {v : Definition}
    (hv : v ∈ d.definitions) : v.WellFormed := by
  simp only [definitions, List.mem_append, Option.mem_toList, Option.map_eq_some_iff,
    List.mem_map] at hv
  rcases hv with (⟨s, hs, rfl⟩ | ⟨v, hv, rfl⟩) | ⟨t, ht, rfl⟩
  · exact h.schema s hs
  · exact h.directives v hv
  · exact h.types t ht

/-! ### Putting together -/

theorem foldl_define_directives (vs : List DirectiveDefinition) (d : Document) :
    (vs.map Definition.directive).foldl define d =
      { d with directives := d.directives.insertAll (vs.map fun v => (v.name.value, v)) } := by
  induction vs generalizing d with
  | nil => rfl
  | cons v vs ih => rw [List.map_cons, List.foldl_cons, ih]; rfl

theorem foldl_define_types (ts : List TypeDefinition) (d : Document) :
    (ts.map Definition.type).foldl define d =
      { d with types := d.types.insertAll (ts.map fun t => (t.name.value, t)) } := by
  induction ts generalizing d with
  | nil => rfl
  | cons t ts ih => rw [List.map_cons, List.foldl_cons, ih]; rfl

/-- A document is put together again from its definitions. -/
theorem Keyed.foldl_definitions {d : Document} (h : d.Keyed) :
    d.definitions.foldl Document.define (.empty d.name) = d := by
  have hschema : (d.schema.map Definition.schema).toList.foldl Document.define (.empty d.name) =
      ⟨d.name, d.schema, ∅, ∅⟩ := by cases d.schema <;> rfl
  rw [definitions, List.foldl_append, List.foldl_append, hschema, foldl_define_directives,
    foldl_define_types]
  dsimp only
  rw [h.directives.insertAll_values, h.types.insertAll_values]

theorem name_foldl_define (vs : List Definition) (d : Document) :
    (vs.foldl define d).name = d.name := by
  induction vs generalizing d with
  | nil => rfl
  | cons v vs ih =>
    rw [List.foldl_cons, ih]
    cases v <;> rfl

/-! ### Labels -/

theorem relabel_define (ρ : Relabeling) (d : Document) (v : Definition) :
    (d.define v).relabel ρ = (d.relabel ρ).define (v.relabel ρ) := by
  cases v with
  | schema s => rfl
  | directive v =>
    simp only [define, relabel, Definition.relabel, Table.map_insert]
    rfl
  | type t =>
    simp only [define, insert, insertUnder, relabel, Definition.relabel, Table.map_insert]
    rfl

theorem relabel_foldl_define (ρ : Relabeling) (vs : List Definition) (d : Document) :
    (vs.foldl define d).relabel ρ = (vs.map (Definition.relabel ρ)).foldl define (d.relabel ρ) := by
  induction vs generalizing d with
  | nil => rfl
  | cons v vs ih => rw [List.foldl_cons, ih, relabel_define, List.map_cons, List.foldl_cons]

theorem reword_foldl_define (w : Rewording) (vs : List Definition) (d : Document) :
    (vs.foldl define d).reword w = (vs.map (Definition.reword w)).foldl define (d.reword w) := by
  rw [reword_eq_relabel, relabel_foldl_define, reword_eq_relabel,
    funext (Definition.reword_eq_relabel w)]

end Document

end SchemaLang
