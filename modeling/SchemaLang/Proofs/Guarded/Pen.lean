import SchemaLang.Proofs.Guarded.Basic
import SchemaLang.Proofs.Pieces
import SchemaLang.Proofs.Strings

/-! Printing with a count of the levels of nesting. The pen goes one level up where a brace opens
and one down where it closes, and indents lines by the level it is at. Going down is guarded. Every
definition leaves the pen at the level at which it found it, so that no level is ever below zero,
and the text is that of the document. -/

namespace SchemaLang

open Guarded Piece

/-- What has been written, and the level of nesting. -/
structure Pen where
  text : List Char
  level : Nat

namespace Pen

variable (o : PrintOptions)

def write (pen : Pen) (ps : List Piece) : Pen :=
  { pen with text := pen.text ++ ps.flatMap Piece.text }

/-- Writes what depends on the indentation. -/
def writeIndented (pen : Pen) (ps : List Char → List Piece) : Pen :=
  pen.write (ps (o.indentAt pen.level))

/-! ### Braces -/

def goUp (pen : Pen) : Guarded Pen := do return { pen with level := ← add pen.level 1 }

def goDown (pen : Pen) : Guarded Pen := do return { pen with level := ← sub pen.level 1 }

def writeLines (pen : Pen) (ls : List (List Char → List Piece)) : Pen :=
  ls.foldl (writeIndented o) pen

/-- An opening brace and the lines behind it, with the pen at the level of the lines and then back
at its own. -/
def openBraces (pen : Pen) (ls : List (List Char → List Piece)) : Guarded Pen := do
  goDown (writeLines o (← (pen.write [space, mark .lbrace, newline]).goUp) ls)

/-- Lines between braces, if there are any. The closing brace is indented. -/
def inBracesIfAny (pen : Pen) (ls : List (List Char → List Piece)) : Guarded Pen :=
  if ls.isEmpty then return pen
  else do return (← pen.openBraces o ls).writeIndented o fun indent =>
    [layout indent, mark .rbrace]

/-! ### Definitions -/

/-- The closing brace of a schema is not indented. -/
def schema (s : Schema) (pen : Pen) : Guarded Pen := do
  let pen := (pen.writeIndented o fun indent => descriptionPieces indent s.description).write
    ([word Keyword.schema.text] ++ s.directives.flatMap Directive.pieces)
  let pen ← pen.openBraces o (s.operations.map fun op indent => op.linePieces indent)
  return pen.write [mark .rbrace]

def directiveDefinition (d : DirectiveDefinition) (pen : Pen) : Guarded Pen :=
  return (pen.writeIndented o fun indent => descriptionPieces indent d.description).write
    ({ d with description := none } : DirectiveDefinition).pieces

def typeDefinition (d : TypeDefinition) (pen : Pen) : Guarded Pen := do
  let pen := (pen.writeIndented o fun indent => descriptionPieces indent d.description).write
    [word d.kind.text, space, word d.name.value]
  let directives := d.directives.flatMap Directive.pieces
  match d.body with
  | .scalar => return pen.write directives
  | .object b | .interface b =>
    ((pen.write (interfacePieces b.interfaces)).write directives).inBracesIfAny o
      (b.fields.values.map fun f indent => f.linePieces indent)
  | .union rs => return (pen.write directives).write (memberPieces rs)
  | .enum vs =>
    (pen.write directives).inBracesIfAny o (vs.map fun v indent => v.linePieces indent)
  | .input fs =>
    (pen.write directives).inBracesIfAny o (fs.values.map fun v indent => v.linePieces indent)

/-- One definition after the other, with blank lines between them. -/
def separated : List (Pen → Guarded Pen) → Pen → Guarded Pen
  | [], pen => return pen
  | first :: others, pen => do
    others.foldlM (fun pen other => other (pen.write [blankLine])) (← first pen)

end Pen

/-- The text of a document, written with a pen. -/
def Document.guardedPrint (d : Document) (o : PrintOptions) : Guarded String := do
  let pen ← Pen.separated
    ((d.schema.map (Pen.schema o)).toList ++ d.directives.values.map (Pen.directiveDefinition o) ++
      d.types.values.map (Pen.typeDefinition o)) ⟨[], 0⟩
  return String.ofList pen.text

/-! ### What the pen writes -/

namespace Pen

variable {o : PrintOptions}

/-- The pieces are written at the outermost level, where the pen then is again. -/
def Writes (w : Pen → Guarded Pen) (ps : List Piece) : Prop :=
  ∀ cs, w ⟨cs, 0⟩ = .ok ⟨cs ++ ps.flatMap Piece.text, 0⟩

theorem write_write (pen : Pen) (ps qs : List Piece) :
    (pen.write ps).write qs = pen.write (ps ++ qs) := by
  rw [write, write, write, List.flatMap_append, List.append_assoc]

theorem writeIndented_zero (cs : List Char) (ps : List Char → List Piece) :
    (Pen.mk cs 0).writeIndented o ps = (Pen.mk cs 0).write (ps []) := by
  rw [writeIndented, PrintOptions.indentAt_zero]

theorem writeLines_one (cs : List Char) (ls : List (List Char → List Piece)) :
    (Pen.mk cs 1).writeLines o ls =
      (Pen.mk cs 1).write (ls.map fun line => line o.indent).flatten := by
  induction ls generalizing cs with
  | nil => simp [writeLines, write]
  | cons line ls ih =>
    rw [writeLines, List.foldl_cons, writeIndented, PrintOptions.indentAt_one]
    exact (ih _).trans (write_write _ _ _)

/-- The lines between braces are one level up, and behind them the pen is back. -/
theorem openBraces_zero (cs : List Char) (ls : List (List Char → List Piece)) :
    (Pen.mk cs 0).openBraces o ls = .ok ((Pen.mk cs 0).write
      ([space, mark .lbrace, newline] ++ (ls.map fun line => line o.indent).flatten)) := by
  have hup : ((Pen.mk cs 0).write [space, mark .lbrace, newline]).goUp =
      .ok ((Pen.mk cs 1).write [space, mark .lbrace, newline]) := rfl
  rw [openBraces, hup]
  change (writeLines o ⟨_, 1⟩ ls).goDown = _
  rw [writeLines_one, ← write_write]
  rfl

/-- Lines in braces are written as they are laid out, the closing brace at the margin. -/
theorem inBracesIfAny_zero {α : Type} (cs : List Char) (as : List α)
    (line : List Char → α → List Piece) :
    (Pen.mk cs 0).inBracesIfAny o (as.map fun a indent => line indent a) =
      .ok ((Pen.mk cs 0).write (Piece.inBracesIfAny (as.map (line o.indent)))) := by
  cases as with
  | nil =>
    have hnone : (Pen.mk cs 0).write [] = ⟨cs, 0⟩ := by simp [write]
    exact congrArg Except.ok hnone.symm
  | cons a as =>
    have hmap : ((a :: as).map fun a indent => line indent a).map (fun l => l o.indent) =
        (a :: as).map (line o.indent) := List.map_map
    rw [inBracesIfAny, Piece.inBracesIfAny, if_neg (by simp), if_neg (by simp), openBraces_zero,
      hmap, ok_bind, Piece.inBraces]
    change Except.ok (writeIndented o ⟨_, 0⟩ _) = _
    rw [writeIndented_zero]
    refine congrArg Except.ok ?_
    simp [write, Piece.text]

theorem writes_schema (s : Schema) : Writes (schema o s) (s.pieces o.indent) := by
  intro cs
  have hmap : (s.operations.map fun op indent => op.linePieces indent).map (fun l => l o.indent) =
      s.operations.map (RootOperation.linePieces o.indent) := List.map_map
  rw [schema, writeIndented_zero, write_write]
  change (openBraces o ⟨_, 0⟩ _ >>= _) = _
  rw [openBraces_zero, hmap, ok_bind, Schema.pieces, Piece.inBraces]
  refine congrArg Except.ok ?_
  simp [write]

theorem writes_directiveDefinition (d : DirectiveDefinition) :
    Writes (directiveDefinition o d) d.pieces := by
  intro cs
  rw [directiveDefinition, writeIndented_zero, write_write]
  refine congrArg Except.ok ?_
  simp [write, DirectiveDefinition.pieces, descriptionPieces]

theorem writes_typeDefinition (d : TypeDefinition) :
    Writes (typeDefinition o d) (d.pieces o.indent) := by
  intro cs
  obtain ⟨description, name, directives, body⟩ := d
  have hfields (cs' : List Char) (fs : Table Field) :=
    inBracesIfAny_zero (o := o) cs' fs.values Field.linePieces
  rw [typeDefinition, writeIndented_zero, write_write, TypeDefinition.pieces]
  cases body with
  | scalar =>
    refine congrArg Except.ok ?_
    simp [write, TypeBody.pieces]
  | object b =>
    dsimp only
    rw [write_write, write_write]
    refine (hfields _ _).trans (congrArg Except.ok ?_)
    simp [write, TypeBody.pieces]
  | interface b =>
    dsimp only
    rw [write_write, write_write]
    refine (hfields _ _).trans (congrArg Except.ok ?_)
    simp [write, TypeBody.pieces]
  | union rs =>
    refine congrArg Except.ok ?_
    simp [write, TypeBody.pieces]
  | enum vs =>
    dsimp only
    rw [write_write]
    refine (inBracesIfAny_zero _ vs EnumValue.linePieces).trans (congrArg Except.ok ?_)
    simp [write, TypeBody.pieces]
  | input fs =>
    dsimp only
    rw [write_write]
    refine (inBracesIfAny_zero _ fs.values InputValue.linePieces).trans (congrArg Except.ok ?_)
    simp [write, TypeBody.pieces]

/-- What is written one by one is separated by blank lines. -/
theorem writes_separated {ws : List (Pen → Guarded Pen)} {pss : List (List Piece)}
    (h : List.Forall₂ Writes ws pss) : Writes (separated ws) (separate [blankLine] pss) := by
  cases h with
  | nil =>
    intro cs
    exact congrArg Except.ok (by simp [separate, List.intercalate])
  | @cons w ps ws pss hw hws =>
    intro cs
    rw [separated, hw cs, ok_bind]
    clear hw
    induction hws generalizing cs ps with
    | nil => exact congrArg Except.ok (by simp [separate, List.intercalate])
    | @cons w' ps' ws pss hw' hws ih =>
      have hblank : (Pen.mk (cs ++ ps.flatMap Piece.text) 0).write [blankLine] =
          ⟨cs ++ (ps ++ [blankLine]).flatMap Piece.text, 0⟩ := by simp [write]
      rw [List.foldlM_cons, hblank, hw', ok_bind, ih, separate_cons_cons]
      simp

end Pen

/-- No level is ever below zero, and what the pen writes is the text of the document. -/
theorem Document.guardedPrint_eq (d : Document) (o : PrintOptions) :
    d.guardedPrint o = .ok (d.print o) := by
  have hwrites : Pen.Writes
      (Pen.separated ((d.schema.map (Pen.schema o)).toList ++
        d.directives.values.map (Pen.directiveDefinition o) ++
        d.types.values.map (Pen.typeDefinition o))) (d.pieces o) := by
    refine Pen.writes_separated (List.rel_append (List.rel_append ?_ ?_) ?_)
    · cases d.schema with
      | none => exact .nil
      | some s => exact .cons (Pen.writes_schema s) .nil
    · rw [List.forall₂_map_left_iff, List.forall₂_map_right_iff, List.forall₂_same]
      exact fun x _ => Pen.writes_directiveDefinition x
    · rw [List.forall₂_map_left_iff, List.forall₂_map_right_iff, List.forall₂_same]
      exact fun x _ => Pen.writes_typeDefinition x
  rw [guardedPrint, hwrites [], ok_bind]
  rfl

end SchemaLang
