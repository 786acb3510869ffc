import SchemaLang.Proofs.Document.Definitions
import SchemaLang.Proofs.Document.Equality
import SchemaLang.Proofs.Reader.Ensures
import SchemaLang.Proofs.Reader.Statement
import SchemaLang.Proofs.Text.Reflow

/-! Printing and reading again. What is printed of a document is read without complaint into the
same document, in the same order, places apart. Only a description with line feeds that is
printed as a block may come out with other lines, and one that keeps its lines does not; but it
comes out alike under all options. -/

namespace SchemaLang

open Piece Reader

/-! ### Statements -/

/-- Words that are read as a statement, with a definition that `P` holds of: a description, a
keyword that begins a statement, and what is read behind the keyword. -/
inductive IsStatement : List (TokenKind × String) → (Definition → Prop) → Prop
  | mk {front back : List (TokenKind × String)} {d : Option String} {k : Keyword}
    {kind : StatementKind} {P : Definition → Prop} (hd : Describes front d)
    (hk : k.statement? = some kind) (hr : Reads (Reader.definition d kind) back P continuations) :
    IsStatement (front ++ (.keyword k, k.text) :: back) P

theorem isStatement_schema {s : Schema} (h : s.WellFormed) (o : PrintOptions) :
    IsStatement (spellings (s.pieces o.indent))
      (·.reword .none = .schema (s.reword (rereading o))) := by
  have hread := (reads_schema h (o := o) rfl).map (f := Definition.schema)
    (Q := (·.reword .none = .schema (s.reword (rereading o)))) fun a ha =>
      congrArg Definition.schema ha
  have hs := IsStatement.mk (k := .schema) (describes_descriptionPieces [] s.description) rfl hread
  simpa only [Schema.pieces, spellings_append, spellings_word, spellings_nil, kindOf_keyword,
    List.append_assoc, List.cons_append, List.nil_append] using hs

theorem isStatement_directive {v : DirectiveDefinition} (h : v.WellFormed) (o : PrintOptions) :
    IsStatement (spellings v.pieces) (·.reword .none = .directive (v.reword (rereading o))) := by
  have hread := (reads_directiveDefinition h (o := o) rfl).map (f := Definition.directive)
    (Q := (·.reword .none = .directive (v.reword (rereading o)))) fun a ha =>
      congrArg Definition.directive ha
  have hv := IsStatement.mk (k := .directive) (describes_descriptionPieces [] v.description) rfl
    (hread.widen (by simp [continuations]))
  simpa only [DirectiveDefinition.pieces, spellings_append, spellings_word, spellings_mark,
    spellings_space, spellings_nil, kindOf_keyword, List.append_assoc, List.cons_append,
    List.nil_append] using hv

theorem isStatement_type {t : TypeDefinition} (h : t.WellFormed) (o : PrintOptions) :
    IsStatement (spellings (t.pieces o.indent))
      (·.reword .none = .type (t.reword (rereading o))) := by
  have hk : ∃ (k : Keyword) (kind : StatementKind), t.kind.text = k.text ∧
      k.statement? = some kind ∧
        ∀ d, Reader.definition d kind = .type <$> typeDefinition d t.kind := by
    cases t.kind with
    | scalar => exact ⟨.scalar, _, rfl, rfl, fun _ => rfl⟩
    | object => exact ⟨.type, _, rfl, rfl, fun _ => rfl⟩
    | interface => exact ⟨.interface, _, rfl, rfl, fun _ => rfl⟩
    | union => exact ⟨.union, _, rfl, rfl, fun _ => rfl⟩
    | enum => exact ⟨.enum, _, rfl, rfl, fun _ => rfl⟩
    | input => exact ⟨.input, _, rfl, rfl, fun _ => rfl⟩
  obtain ⟨k, kind, htext, hstatement, hreader⟩ := hk
  have hread := (reads_typeDefinition h (o := o) rfl).map (f := Definition.type)
    (Q := (·.reword .none = .type (t.reword (rereading o)))) fun a ha =>
      congrArg Definition.type ha
  rw [← hreader] at hread
  have ht := IsStatement.mk (describes_descriptionPieces [] t.description) hstatement hread
  rw [TypeDefinition.pieces, htext]
  simpa only [spellings_append, spellings_word, spellings_space, spellings_nil, kindOf_keyword,
    List.append_assoc, List.cons_append, List.nil_append] using ht

theorem isStatement_pieces {v : Definition} (h : v.WellFormed) (o : PrintOptions) :
    IsStatement (spellings (v.pieces o.indent)) (·.reword .none = v.reword (rereading o)) := by
  cases v with
  | schema s => exact isStatement_schema h o
  | directive v => exact isStatement_directive h o
  | type t => exact isStatement_type h o

/-- A statement is nothing by which the one before it could go on. -/
theorem IsStatement.leads {u : List (TokenKind × String)} {P : Definition → Prop}
    (h : IsStatement u P) (v : List (TokenKind × String)) (bad : List TokenKind) :
    Leads continuations (u ++ v) bad := by
  cases h with
  | @mk front back d k kind _ hd hk hr =>
    rw [List.append_assoc]
    refine hd.leads (by simp [continuations, TokenKind.isString]) ?_
    have hkey : .keyword k ∉ continuations := by
      intro hmem
      obtain rfl : k = .implements := by simpa [continuations] using hmem
      cases hk
    exact hkey

theorem clear_of_isStatement {α : Type} {spell : α → List (TokenKind × String)}
    {P : α → Definition → Prop} {xs : List α} (hxs : ∀ x ∈ xs, IsStatement (spell x) (P x))
    {ts : List Token} (hts : ts.map Token.spelling = xs.flatMap spell) :
    Clear continuations ts := by
  have hleads : Leads continuations (ts.map Token.spelling) continuations := by
    rw [hts]
    cases xs with
    | nil => exact List.Subset.refl _
    | cons x xs => exact (hxs x List.mem_cons_self).leads _ _
  have hclear : Clear continuations (ts ++ []) := hleads.clear (by simp [Clear])
  rwa [List.append_nil] at hclear

theorem splitDescription_of_describes {fs ts : List Token} {d : Option String}
    (h : Describes (fs.map Token.spelling) d) (hts : Clear [.string, .blockString] ts) :
    splitDescription (fs ++ ts) = (d, ts) := by
  obtain ⟨a, ha, rfl⟩ := reads_description h fs ts rfl hts
  rw [run_description] at ha
  injection ha with h₁ _ h₂
  exact Prod.ext h₁ h₂

/-- Words that are statements are read into their definitions, one after the other. -/
theorem items_of_isStatement {α β : Type} {spell : α → List (TokenKind × String)}
    {g : Definition → β} {h : α → β} {xs : List α}
    (hxs : ∀ x ∈ xs, IsStatement (spell x) (fun a => g a = h x)) (stop : Token) {ts : List Token}
    (hts : ts.map Token.spelling = xs.flatMap spell) :
    ∃ ds : List Definition, items stop ts = ds.map (.defined · []) ∧ ds.map g = xs.map h := by
  induction xs generalizing ts with
  | nil =>
    obtain rfl := List.map_eq_nil_iff.mp hts
    exact ⟨[], items_nil stop, rfl⟩
  | cons x xs ih =>
    have hx := hxs x List.mem_cons_self
    obtain ⟨us, rest, rfl, hus, hrest⟩ := List.map_eq_append_iff.mp hts
    obtain ⟨ds, hds, hmap⟩ := ih (fun y hy => hxs y (List.mem_cons_of_mem x hy)) hrest
    generalize spell x = u at hx hus
    cases hx with
    | @mk front back d k kind _ hd hk hr =>
      obtain ⟨fs, bs, rfl, hfs, hbs⟩ := List.map_eq_append_iff.mp hus
      obtain ⟨t, bs, rfl, ht, hback⟩ := List.map_eq_cons_iff.mp hbs
      have hkind : t.kind = .keyword k := (Prod.mk.inj ht).1
      have hsplit : splitDescription (fs ++ (t :: (bs ++ rest))) = (d, t :: (bs ++ rest)) :=
        splitDescription_of_describes (hfs ▸ hd) (by simp [hkind])
      have hclear := clear_of_isStatement (fun y hy => hxs y (List.mem_cons_of_mem x hy)) hrest
      obtain ⟨a, ha, hga⟩ := hr bs rest hback hclear
      refine ⟨a :: ds, ?_, by rw [List.map_cons, List.map_cons, hga, hmap]⟩
      have hkeyword : t.kind.statement? = some kind := by
        rw [hkind]
        exact hk
      rw [List.append_assoc, List.cons_append,
        items_of_done (congrArg Prod.snd hsplit) hkeyword (by rw [hsplit]; exact ha), hds,
        List.map_cons]

/-! ### Documents -/

theorem reread_of_notMem {s : String} (h : '\n' ∉ s.toList) (indent : List Char) :
    reread indent s = s := by
  rw [reread, if_neg (by simpa using h)]

/-- The indentation that it is printed with leaves no trace in a description. -/
theorem reread_eq_reflow {s : String} {indent : List Char} (hi : Block.IsIndent indent)
    (h : '\n' ∈ s.toList) : reread indent s = String.ofList (Block.reflow s.toList) := by
  rw [reread, if_pos (by simpa using h), Block.read_write_eq_reflow hi]

theorem reread_eq_of_isIndent {indent indent' : List Char} (hi : Block.IsIndent indent)
    (hi' : Block.IsIndent indent') (s : String) : reread indent s = reread indent' s := by
  by_cases hs : '\n' ∈ s.toList
  · rw [reread_eq_reflow hi hs, reread_eq_reflow hi' hs]
  · rw [reread_of_notMem hs, reread_of_notMem hs]

/-- A description comes out as it went in exactly if it keeps its lines. -/
theorem reread_eq_iff {indent : List Char} (hi : Block.IsIndent indent) (s : String) :
    reread indent s = s ↔ ('\n' ∈ s.toList → Block.Safe s.toList) := by
  by_cases hs : '\n' ∈ s.toList
  · rw [reread_eq_reflow hi hs, ← String.toList_inj, String.toList_ofList, Block.reflow_eq_iff hs]
    exact ⟨fun h _ => h, fun h => h hs⟩
  · exact ⟨fun _ h => absurd h hs, fun _ => reread_of_notMem hs indent⟩

theorem reread_of_safe {s : String} {indent : List Char} (hi : Block.IsIndent indent)
    (h : '\n' ∈ s.toList → Block.Safe s.toList) : reread indent s = s :=
  (reread_eq_iff hi s).mpr h

/-- What is printed of a well-formed document is read without complaint, and into the same
document but for its places and the descriptions that are printed as blocks. -/
theorem Document.WellFormed.reads_back {d : Document} (h : d.WellFormed) (o : PrintOptions) :
    (parse (d.print o) d.name).diagnostics = [] ∧ (parse (d.print o) d.name).aborted = false ∧
      (parse (d.print o) d.name).document.plain = d.reword (rereading o) := by
  have hwords : (Tokens.ofString (d.print o)).words.map Token.spelling =
      d.definitions.flatMap fun v => spellings (v.pieces o.indent) := by
    rw [← d.spellings_pieces]
    exact Tokens.spelling_words_render (h.lexes o)
  obtain ⟨ds, hds, hmap⟩ := items_of_isStatement (h := Definition.reword (rereading o))
    (fun v hv => isStatement_pieces (h.of_mem_definitions hv) o)
    (Tokens.ofString (d.print o)).stop hwords
  rw [parse, Tokens.parse, hds, Parsed.ofItems]
  refine ⟨?_, ?_, ?_⟩
  · simp [List.flatMap_map, Item.found]
  · simp [Item.isStop]
  · have hdefs : (ds.map (Item.defined · [])).filterMap Item.definition? = ds := by
      rw [List.filterMap_map]
      exact List.filterMap_some
    have hback := congrArg (reword (rereading o)) h.keyed.foldl_definitions
    rw [reword_foldl_define] at hback
    rw [hdefs, plain, reword_foldl_define, hmap]
    exact hback

/-- Printing a document that was read from a text, and reading it again: nothing is found and
nothing is given up; the document is the same, in the same order, but for its places and the
descriptions with line feeds that stand outside of argument lists; and if these keep their
lines, the document is equal to the first one and is printed as the same text again. -/
theorem parse_print (source name : String) (o : PrintOptions) :
    let d := (parse source name).document
    let again := parse (d.print o) name
    again.diagnostics = [] ∧ again.aborted = false ∧
      (∃ w : Rewording, (∀ s : String, '\n' ∉ s.toList → w.outer s = s ∧ w.inner s = s) ∧
        again.document.plain = d.reword w) ∧
      ((∀ s ∈ d.descriptions, '\n' ∈ s.toList → Block.Safe s.toList) →
        again.document.plain = d.plain ∧ (again.document == d) = true ∧
          again.document.print o = d.print o) := by
  intro d again
  have hd : d.WellFormed := wellFormed_parse source name
  have hname : d.name = name := Document.name_foldl_define _ _
  obtain ⟨hdiagnostics, haborted, hplain⟩ := hd.reads_back o
  rw [hname] at hdiagnostics haborted hplain
  refine ⟨hdiagnostics, haborted, ⟨rereading o, fun s hs => ?_, hplain⟩, fun hsafe => ?_⟩
  · exact ⟨reread_of_notMem hs _, reread_of_notMem hs _⟩
  · have hsame : again.document.plain = d.plain := by
      refine hplain.trans (Document.reword_congr fun s hs => ⟨?_, ?_⟩)
      · exact reread_of_safe Block.isIndent_nil (hsafe s hs)
      · exact reread_of_safe o.isIndent_indent (hsafe s hs)
    exact ⟨hsame, Document.beq_of_plain hsame, Document.print_eq_of_plain hsame o⟩

/-- The options of printing change no meaning: what two of them print of one document that was
read from a text is read without complaint into the same document, in the same order, places
apart, and is printed alike from then on. -/
theorem parse_print_options (source name : String) (o₁ o₂ : PrintOptions) :
    let d := (parse source name).document
    let again := fun o : PrintOptions => parse (d.print o) name
    ((again o₁).diagnostics = [] ∧ (again o₁).aborted = false) ∧
      ((again o₂).diagnostics = [] ∧ (again o₂).aborted = false) ∧
      (again o₁).document.plain = (again o₂).document.plain ∧
      ((again o₁).document == (again o₂).document) = true ∧
      ∀ o, (again o₁).document.print o = (again o₂).document.print o := by
  intro d again
  have hd : d.WellFormed := wellFormed_parse source name
  have hname : d.name = name := Document.name_foldl_define _ _
  have hback : ∀ o, ((again o).diagnostics = [] ∧ (again o).aborted = false) ∧
      (again o).document.plain = d.reword (rereading o) := by
    intro o
    have h := hd.reads_back o
    rwa [hname, ← and_assoc] at h
  have hsame : (again o₁).document.plain = (again o₂).document.plain := by
    rw [(hback o₁).2, (hback o₂).2]
    refine Document.reword_congr fun s _ => ⟨rfl, ?_⟩
    exact reread_eq_of_isIndent o₁.isIndent_indent o₂.isIndent_indent s
  exact ⟨(hback o₁).1, (hback o₂).1, hsame, Document.beq_of_plain hsame,
    Document.print_eq_of_plain hsame⟩

end SchemaLang
