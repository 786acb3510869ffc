import SchemaLang.Proofs.Document.WellFormed
import SchemaLang.Proofs.Pieces

/-! Printed documents are cut into the lexemes that they were put together from. Whatever is
printed stands before something that lexes; it may ask that a delimiter comes first there,
and may itself begin with one. -/

namespace SchemaLang

open Piece (Lexes)

namespace Piece

open Lexeme (Delimited)

/-! ### Single pieces -/

/-- Pieces that lex and begin with a delimiter, or with nothing. -/
structure Breaks (ps : List Piece) : Prop where
  lexes : Lexes ps
  delimited : Delimited (ps.flatMap text)

variable {rest : List Piece}

theorem Breaks.nil : Breaks [] := ⟨True.intro, .nil⟩

theorem Breaks.mark (m : Mark) (h : Lexes rest) : Breaks (mark m :: rest) := by
  refine ⟨⟨True.intro, nofun, h⟩, ?_⟩
  rw [List.flatMap_cons, text, List.singleton_append, Lexeme.delimited_cons]
  cases m <;> decide

theorem Breaks.layout {c : Char} {cs : List Char} (hcs : ∀ d ∈ c :: cs, isSeparator d = true)
    (h : Lexes rest) : Breaks (layout (c :: cs) :: rest) := by
  refine ⟨⟨hcs, nofun, h⟩, ?_⟩
  rw [List.flatMap_cons, text, List.cons_append]
  exact Lexeme.delimited_of_isSeparator (hcs c List.mem_cons_self) _

theorem Breaks.space (h : Lexes rest) : Breaks (space :: rest) :=
  .layout (by simp [isSeparator]) h

theorem Breaks.newline (h : Lexes rest) : Breaks (newline :: rest) :=
  .layout (by simp [isSeparator]) h

theorem Breaks.comma (h : Lexes rest) : Breaks (comma :: rest) :=
  .layout (by simp [isSeparator]) h

theorem Breaks.blankLine (h : Lexes rest) : Breaks (blankLine :: rest) :=
  .layout (by simp [isSeparator]) h

theorem lexes_word {k : TokenKind} {w : String} (hk : Lexeme.IsPlain k)
    (hw : Lexeme.Relexes k w.toList) (h : Breaks rest) : Lexes (word w :: rest) :=
  ⟨⟨k, hk, hw⟩, fun _ => h.delimited, h.lexes⟩

theorem lexes_name {w : String} (hw : IsName w) (h : Breaks rest) : Lexes (word w :: rest) := by
  obtain ⟨k, hk, hw⟩ := hw
  exact lexes_word (.inl hk) hw h

theorem lexes_keyword (k : Keyword) (h : Breaks rest) : Lexes (word k.text :: rest) :=
  lexes_word (.inl rfl) (Lexeme.relexes_keyword k) h

theorem lexes_quoted (v : String) (h : Breaks rest) : Lexes (quoted v :: rest) :=
  ⟨True.intro, fun _ => h.delimited, h.lexes⟩

theorem lexes_block {indent : List Char} (hi : Block.IsIndent indent) (v : String)
    (h : Lexes rest) : Lexes (block indent v :: rest) := ⟨hi, nofun, h⟩

theorem lexes_indent {indent : List Char} (hi : Block.IsIndent indent) (h : Lexes rest) :
    Lexes (layout indent :: rest) := by
  refine ⟨fun c hc => ?_, nofun, h⟩
  rcases hi c hc with rfl | rfl <;> decide

/-! ### Lists of pieces -/

/-- Pieces that lex wherever a delimiter follows. -/
def Ready (ps : List Piece) : Prop := ∀ rest, Breaks rest → Lexes (ps ++ rest)

theorem Ready.separate {sep : List Piece} (hsep : ∀ rest, Lexes rest → Breaks (sep ++ rest))
    {ps : List (List Piece)} (h : ∀ p ∈ ps, Ready p) (hr : Breaks rest) :
    Lexes (separate sep ps ++ rest) := by
  induction ps with
  | nil => exact hr.lexes
  | cons p ps ih =>
    have hp := h p List.mem_cons_self
    cases ps with
    | nil => simpa [Piece.separate, List.intercalate] using hp rest hr
    | cons q ps =>
      rw [separate_cons_cons, List.append_assoc, List.append_assoc]
      exact hp _ (hsep _ (ih fun x hx => h x (List.mem_cons_of_mem p hx)))

theorem Breaks.inParentheses {ps : List (List Piece)} (h : ∀ p ∈ ps, Ready p) (hr : Breaks rest) :
    Breaks (inParentheses ps ++ rest) := by
  unfold Piece.inParentheses
  split
  next => exact hr
  next =>
    rw [List.append_assoc, List.append_assoc]
    exact .mark _ (Ready.separate (fun _ => .comma) h (.mark _ hr.lexes))

theorem lexes_flatten {ls : List (List Piece)}
    (h : ∀ l ∈ ls, ∀ rest, Lexes rest → Lexes (l ++ rest))
    (hr : Lexes rest) : Lexes (ls.flatten ++ rest) := by
  induction ls with
  | nil => exact hr
  | cons l ls ih =>
    rw [List.flatten_cons, List.append_assoc]
    exact h l List.mem_cons_self _ (ih fun m hm => h m (List.mem_cons_of_mem l hm))

theorem Breaks.inBraces {ls : List (List Piece)}
    (h : ∀ l ∈ ls, ∀ rest, Lexes rest → Lexes (l ++ rest)) (hr : Lexes rest) :
    Breaks (inBraces ls ++ rest) := by
  rw [Piece.inBraces, List.append_assoc, List.append_assoc]
  have hls := lexes_flatten h (Breaks.mark .rbrace hr).lexes
  exact .space (Breaks.mark _ (Breaks.newline hls).lexes).lexes

theorem Breaks.inBracesIfAny {ls : List (List Piece)}
    (h : ∀ l ∈ ls, ∀ rest, Lexes rest → Lexes (l ++ rest)) (hr : Breaks rest) :
    Breaks (inBracesIfAny ls ++ rest) := by
  unfold Piece.inBracesIfAny
  split
  next => exact hr
  next => exact .inBraces h hr.lexes

end Piece

open Piece

/-! ### Parts of definitions -/

theorem TypeRef.WellFormed.ready {r : TypeRef} (h : r.WellFormed) : Ready r.pieces := by
  have hfold : ∀ (ws : List Wrapper) (inside : List Piece), Ready inside →
      Ready (ws.foldl Wrapper.around inside) := by
    intro ws
    induction ws with
    | nil => exact fun _ hi => hi
    | cons w ws ih =>
      intro inside hi
      refine ih _ fun rest hr => ?_
      cases w with
      | list =>
        rw [Wrapper.around, List.append_assoc, List.append_assoc]
        exact (Breaks.mark _ (hi _ (.mark _ hr.lexes))).lexes
      | nonNull =>
        rw [Wrapper.around, List.append_assoc]
        exact hi _ (.mark _ hr.lexes)
  exact hfold r.wrappers _ fun _ hr => lexes_name h.name hr

namespace Value

theorem itemPieces_eq (vs : List Value) : itemPieces vs = vs.map pieces := by
  induction vs with
  | nil => rfl
  | cons v vs ih => rw [itemPieces, ih, List.map_cons]

theorem entryPieces_eq (es : List (String × Value)) :
    entryPieces es = es.map fun e => [word e.1, mark .colon, space] ++ e.2.pieces := by
  induction es with
  | nil => rfl
  | cons e es ih => rw [entryPieces, ih, List.map_cons]

theorem WellFormed.ready {v : Value} (h : v.WellFormed) : Ready v.pieces := by
  intro rest hr
  induction h generalizing rest with
  | int h => exact lexes_word (.inr (.inl rfl)) h hr
  | float h => exact lexes_word (.inr (.inr rfl)) h hr
  | string value => exact lexes_quoted value hr
  | boolean b => cases b <;> exact lexes_keyword _ hr
  | null => exact lexes_keyword .null hr
  | enum hk hc h => exact lexes_word (.inl hk) h hr
  | list h ih =>
    rw [pieces, itemPieces_eq, List.append_assoc, List.append_assoc]
    refine (Breaks.mark _ (Ready.separate (fun _ => .comma) ?_ (.mark _ hr.lexes))).lexes
    intro p hp
    obtain ⟨v, hv, rfl⟩ := List.mem_map.mp hp
    exact ih v hv
  | object hn hv ih =>
    rw [pieces, entryPieces_eq, List.append_assoc, List.append_assoc]
    refine (Breaks.mark _ (Ready.separate (fun _ => .comma) ?_ (.mark _ hr.lexes))).lexes
    intro p hp rest hr
    obtain ⟨e, he, rfl⟩ := List.mem_map.mp hp
    exact lexes_name (hn e he) (.mark _ (Breaks.space (ih e he rest hr)).lexes)

end Value

theorem Argument.WellFormed.ready {a : Argument} (h : a.WellFormed) : Ready a.pieces :=
  fun _ hr => lexes_name h.name (.mark _ (Breaks.space (h.value.ready _ hr)).lexes)

theorem Directive.WellFormed.breaks {d : Directive} (h : d.WellFormed) {rest : List Piece}
    (hr : Breaks rest) : Breaks (d.pieces ++ rest) := by
  rw [pieces, List.append_assoc]
  refine .space (Breaks.mark _ (lexes_name h.name (.inParentheses ?_ hr))).lexes
  intro p hp
  obtain ⟨a, ha, rfl⟩ := List.mem_map.mp hp
  exact (h.arguments a ha).ready

theorem Directive.breaks_list {ds : List Directive} (h : ∀ d ∈ ds, d.WellFormed)
    {rest : List Piece} (hr : Breaks rest) : Breaks (ds.flatMap Directive.pieces ++ rest) := by
  induction ds with
  | nil => exact hr
  | cons d ds ih =>
    rw [List.flatMap_cons, List.append_assoc]
    exact (h d List.mem_cons_self).breaks (ih fun e he => h e (List.mem_cons_of_mem d he))

theorem lexes_description {indent : List Char} (hi : Block.IsIndent indent) (d : Option String)
    {rest : List Piece} (hr : Lexes rest) : Lexes (descriptionPieces indent d ++ rest) := by
  cases d with
  | none => exact hr
  | some d =>
    refine lexes_indent hi ?_
    have hnl := Breaks.newline hr
    split
    next => exact lexes_block hi d hnl.lexes
    next => exact lexes_quoted d hnl

namespace InputValue

variable {v : InputValue}

theorem WellFormed.ready (h : v.WellFormed) : Ready v.pieces := by
  intro rest hr
  have hds := Directive.breaks_list h.directives hr
  simp only [pieces, List.append_assoc]
  refine lexes_name h.name (.mark _ (Breaks.space (h.type.ready _ ?_)).lexes)
  cases hd : v.defaultValue with
  | none => exact hds
  | some d =>
    exact .space (Breaks.mark _ (Breaks.space ((h.defaultValue d hd).ready _ hds)).lexes).lexes

theorem WellFormed.ready_argument (h : v.WellFormed) : Ready v.argumentPieces := by
  intro rest hr
  rw [argumentPieces, List.append_assoc]
  cases v.description with
  | none => exact h.ready rest hr
  | some d => exact lexes_quoted d (.space (h.ready rest hr))

theorem AreArguments.breaks {args : List InputValue} (h : AreArguments args) {rest : List Piece}
    (hr : Breaks rest) : Breaks (inParentheses (args.map argumentPieces) ++ rest) := by
  refine .inParentheses (fun p hp => ?_) hr
  obtain ⟨a, ha, rfl⟩ := List.mem_map.mp hp
  exact (h.wellFormed a ha).ready_argument

theorem WellFormed.lexes_line (h : v.WellFormed) {indent : List Char}
    (hi : Block.IsIndent indent) {rest : List Piece} (hr : Lexes rest) :
    Lexes (v.linePieces indent ++ rest) := by
  simp only [linePieces, List.append_assoc]
  exact lexes_description hi _ (lexes_indent hi (h.ready _ (.newline hr)))

end InputValue

theorem Field.WellFormed.lexes_line {f : Field} (h : f.WellFormed) {indent : List Char}
    (hi : Block.IsIndent indent) {rest : List Piece} (hr : Lexes rest) :
    Lexes (f.linePieces indent ++ rest) := by
  simp only [linePieces, List.append_assoc]
  refine lexes_description hi _ (lexes_indent hi (lexes_name h.name (h.arguments.breaks ?_)))
  exact .mark _ (Breaks.space (h.type.ready _ (Directive.breaks_list h.directives
    (.newline hr)))).lexes

theorem EnumValue.WellFormed.lexes_line {v : EnumValue} (h : v.WellFormed) {indent : List Char}
    (hi : Block.IsIndent indent) {rest : List Piece} (hr : Lexes rest) :
    Lexes (v.linePieces indent ++ rest) := by
  obtain ⟨k, hk, -, hw⟩ := h.name
  simp only [linePieces, List.append_assoc]
  exact lexes_description hi _ (lexes_indent hi (lexes_word (.inl hk) hw
    (Directive.breaks_list h.directives (.newline hr))))

theorem RootOperation.lexes_line {op : RootOperation} (h : op.type.IsNamed) {indent : List Char}
    (hi : Block.IsIndent indent) {rest : List Piece} (hr : Lexes rest) :
    Lexes (op.linePieces indent ++ rest) := by
  have hk : ∃ k : Keyword, op.kind.text = k.text := by
    cases op.kind with
    | query => exact ⟨.query, rfl⟩
    | mutation => exact ⟨.mutation, rfl⟩
    | subscription => exact ⟨.subscription, rfl⟩
  obtain ⟨k, hk⟩ := hk
  rw [linePieces, hk]
  exact lexes_indent hi (lexes_keyword k (.mark _ (Breaks.space (lexes_name h.name
    (.newline hr))).lexes))

/-! ### Definitions -/

/-- Names with a mark between them, spaces around it. -/
theorem lexes_names (m : Mark) {rs : List TypeRef} (h : ∀ r ∈ rs, r.IsNamed) {rest : List Piece}
    (hr : Breaks rest) :
    Lexes (separate [space, mark m, space] (rs.map fun r => [word r.name]) ++ rest) := by
  refine Ready.separate (fun _ hs => .space (Breaks.mark _ (Breaks.space hs).lexes).lexes)
    (fun p hp => ?_) hr
  obtain ⟨r, hr, rfl⟩ := List.mem_map.mp hp
  exact fun _ hq => lexes_name (h r hr).name hq

theorem breaks_interfacePieces {rs : List TypeRef} (h : TypeRef.AreInterfaces rs)
    {rest : List Piece} (hr : Breaks rest) : Breaks (interfacePieces rs ++ rest) := by
  unfold interfacePieces
  split
  next => exact hr
  next =>
    rw [List.append_assoc]
    exact .space (lexes_keyword .implements (.space (lexes_names .amp h.named hr)))

theorem breaks_memberPieces {rs : List TypeRef} (h : ∀ r ∈ rs, r.IsNamed) {rest : List Piece}
    (hr : Breaks rest) : Breaks (memberPieces rs ++ rest) := by
  unfold memberPieces
  split
  next => exact hr
  next =>
    rw [List.append_assoc]
    exact .space (Breaks.mark _ (Breaks.space (lexes_names .pipe h hr)).lexes).lexes

variable {indent : List Char} {rest : List Piece}

theorem FieldSet.WellFormed.breaks_fields {b : FieldSet} (h : b.WellFormed)
    (hi : Block.IsIndent indent) (hr : Breaks rest) :
    Breaks (inBracesIfAny (b.fields.values.map (Field.linePieces indent)) ++ rest) := by
  refine .inBracesIfAny (fun l hl => ?_) hr
  obtain ⟨f, hf, rfl⟩ := List.mem_map.mp hl
  exact fun _ => (h.fields f hf).lexes_line hi

theorem TypeBody.WellFormed.breaks_front {b : TypeBody} (h : b.WellFormed) (hr : Breaks rest) :
    Breaks ((b.pieces indent).1 ++ rest) := by
  cases b with
  | scalar | union _ | enum _ | input _ => exact hr
  | object b | interface b => exact breaks_interfacePieces (FieldSet.WellFormed.interfaces h) hr

theorem TypeBody.WellFormed.breaks_back {b : TypeBody} (h : b.WellFormed)
    (hi : Block.IsIndent indent) (hr : Breaks rest) :
    Breaks ((b.pieces indent).2 ++ rest) := by
  cases b with
  | scalar => exact hr
  | object b | interface b => exact FieldSet.WellFormed.breaks_fields h hi hr
  | union rs => exact breaks_memberPieces h hr
  | enum vs =>
    refine .inBracesIfAny (fun l hl => ?_) hr
    obtain ⟨v, hv, rfl⟩ := List.mem_map.mp hl
    exact fun _ => (h v hv).lexes_line hi
  | input fs =>
    refine .inBracesIfAny (fun l hl => ?_) hr
    obtain ⟨v, hv, rfl⟩ := List.mem_map.mp hl
    exact fun _ => (h.2 v hv).lexes_line hi

theorem TypeDefinition.WellFormed.ready {t : TypeDefinition} (h : t.WellFormed)
    (hi : Block.IsIndent indent) : Ready (t.pieces indent) := by
  intro rest hr
  have hk : ∃ k : Keyword, t.kind.text = k.text := by
    cases t.kind with
    | scalar => exact ⟨.scalar, rfl⟩
    | object => exact ⟨.type, rfl⟩
    | interface => exact ⟨.interface, rfl⟩
    | union => exact ⟨.union, rfl⟩
    | enum => exact ⟨.enum, rfl⟩
    | input => exact ⟨.input, rfl⟩
  obtain ⟨k, hk⟩ := hk
  simp only [pieces, hk, List.append_assoc]
  exact lexes_description Block.isIndent_nil _ (lexes_keyword k (.space (lexes_name h.name
    (h.body.breaks_front (Directive.breaks_list h.directives (h.body.breaks_back hi hr))))))

theorem Schema.WellFormed.ready {s : Schema} (h : s.WellFormed) (hi : Block.IsIndent indent) :
    Ready (s.pieces indent) := by
  intro rest hr
  simp only [pieces, List.append_assoc]
  refine lexes_description Block.isIndent_nil _ (lexes_keyword .schema
    (Directive.breaks_list h.directives (.inBraces (fun l hl => ?_) hr.lexes)))
  obtain ⟨op, hop, rfl⟩ := List.mem_map.mp hl
  exact fun _ => RootOperation.lexes_line (h.operations op hop) hi

theorem DirectiveDefinition.WellFormed.ready {v : DirectiveDefinition} (h : v.WellFormed) :
    Ready v.pieces := by
  intro rest hr
  have hlocations : Lexes (separate [space, mark .pipe, space]
      (v.locations.map fun l => [word l.text]) ++ rest) := by
    refine Ready.separate (fun _ hs => .space (Breaks.mark _ (Breaks.space hs).lexes).lexes)
      (fun p hp => ?_) hr
    obtain ⟨l, -, rfl⟩ := List.mem_map.mp hp
    exact fun _ hq => lexes_word (.inl rfl) (Lexeme.relexes_location l) hq
  have hon := Breaks.space (lexes_keyword .on (.space hlocations))
  simp only [pieces, List.append_assoc]
  refine lexes_description Block.isIndent_nil _ (lexes_keyword .directive (.space (Breaks.mark _
    (lexes_name h.name (h.arguments.breaks ?_))).lexes))
  split
  next => exact .space (lexes_keyword .repeatable hon)
  next => exact hon

/-! ### Documents -/

theorem PrintOptions.isIndent_indent (o : PrintOptions) : Block.IsIndent o.indent := by
  unfold indent
  split
  next => simp [Block.IsIndent]
  next =>
    intro c hc
    exact .inl (List.eq_of_mem_replicate hc)

/-- A well-formed document is printed as pieces that lex. -/
theorem Document.WellFormed.lexes {d : Document} (h : d.WellFormed) (o : PrintOptions) :
    Lexes (d.pieces o) := by
  have hready : ∀ p ∈ (d.schema.map (Schema.pieces o.indent)).toList ++
      d.directives.values.map DirectiveDefinition.pieces ++
      d.types.values.map (TypeDefinition.pieces o.indent), Ready p := by
    intro p hp
    simp only [List.mem_append, Option.mem_toList, Option.map_eq_some_iff, List.mem_map] at hp
    rcases hp with (⟨s, hs, rfl⟩ | ⟨v, hv, rfl⟩) | ⟨t, ht, rfl⟩
    · exact (h.schema s hs).ready o.isIndent_indent
    · exact (h.directives v hv).ready
    · exact (h.types t ht).ready o.isIndent_indent
  have hlexes : Lexes (d.pieces o ++ []) := Ready.separate (fun _ => .blankLine) hready .nil
  rwa [List.append_nil] at hlexes

end SchemaLang
