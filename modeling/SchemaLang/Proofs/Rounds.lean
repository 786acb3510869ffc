import SchemaLang.Parse
import SchemaLang.Proofs.Table

/-! The rounds in which a text is read, and the document that is put together from them: each
definition in it stands under its own name. -/

namespace SchemaLang

/-! ### Rounds of reading -/

/-- A statement begins. -/
def Starts (ts : List Token) : Prop := ∃ t ∈ ts.head?, t.kind.startsStatement = true

instance (ts : List Token) : Decidable (Starts ts) :=
  inferInstanceAs (Decidable (∃ t ∈ ts.head?, _))

/-- The rounds of reading, the reader's own guard left out. -/
theorem items_eq (stop : Token) {ts : List Token} (h : ts ≠ []) :
    items stop ts = match (splitDescription ts).2 with
      | [] => [.stopped ⟨.notAStatement (Reader.describeNext []), stop.location⟩]
      | t :: rest =>
        match t.kind.statement? with
        | none => [.stopped ⟨.notAStatement t.describe, t.location⟩]
        | some kind =>
          match (Reader.definition (splitDescription ts).1 kind).run rest with
          | .done d found rest' => .defined d found :: items stop rest'
          | .stuck fault found rest' =>
            .givenUp (stuckDiagnostics stop fault found rest') ::
              items stop (resume (t :: rest) rest') := by
  rw [items, if_neg h]
  split
  next hd => rw [hd]
  next t rest hd =>
    rw [hd]
    dsimp only
    cases t.kind.statement? with
    | none => rfl
    | some kind =>
      dsimp only [Reader.run]
      cases (Reader.definition (splitDescription ts).1 kind rest) with
      | mk o ho => cases o <;> rfl

/-! The four rounds: a text that breaks off behind a description, something else than a statement,
a statement that is read, and one that is given up. -/

section Round

variable {stop t : Token} {ts rest rest' : List Token} {k : StatementKind} {ds : Diagnostics}

theorem items_nil (stop : Token) : items stop [] = [] := by rw [items, if_pos rfl]

theorem ne_nil_of_splitDescription (h : (splitDescription ts).2 = t :: rest) : ts ≠ [] := by
  rintro rfl
  cases h

theorem items_of_end (h : ts ≠ []) (hd : (splitDescription ts).2 = []) : items stop ts =
    [.stopped ⟨.notAStatement (Reader.describeNext []), stop.location⟩] := by
  rw [items_eq stop h, hd]

theorem items_of_other (hd : (splitDescription ts).2 = t :: rest) (hk : t.kind.statement? = none) :
    items stop ts = [.stopped ⟨.notAStatement t.describe, t.location⟩] := by
  rw [items_eq stop (ne_nil_of_splitDescription hd), hd]
  dsimp only
  rw [hk]

theorem items_of_done {d : Definition} (hd : (splitDescription ts).2 = t :: rest)
    (hk : t.kind.statement? = some k)
    (h : (Reader.definition (splitDescription ts).1 k).run rest = .done d ds rest') :
    items stop ts = .defined d ds :: items stop rest' := by
  rw [items_eq stop (ne_nil_of_splitDescription hd), hd]
  dsimp only
  rw [hk]
  dsimp only
  rw [h]

theorem items_of_stuck {fault : Fault} (hd : (splitDescription ts).2 = t :: rest)
    (hk : t.kind.statement? = some k)
    (h : (Reader.definition (splitDescription ts).1 k).run rest = .stuck fault ds rest') :
    items stop ts = .givenUp (stuckDiagnostics stop fault ds rest') ::
      items stop (resume (t :: rest) rest') := by
  rw [items_eq stop (ne_nil_of_splitDescription hd), hd]
  dsimp only
  rw [hk]
  dsimp only
  rw [h]

/-! What is left of a round ends the tokens behind the keyword. -/

theorem rest_suffix (hd : (splitDescription ts).2 = t :: rest) : rest <:+ ts :=
  (List.suffix_cons t rest).trans (hd ▸ splitDescription_suffix ts)

theorem suffix_of_done {description : Option String} {d : Definition}
    (h : (Reader.definition description k).run rest = .done d ds rest') : rest' <:+ rest := by
  simpa [h, Outcome.rest] using (Reader.definition description k).rest_run_suffix rest

theorem resume_suffix_of_stuck {description : Option String} {fault : Fault}
    (h : (Reader.definition description k).run rest = .stuck fault ds rest') :
    resume (t :: rest) rest' <:+ rest := by
  have hrest : rest' <:+ rest := by
    simpa [h, Outcome.rest] using (Reader.definition description k).rest_run_suffix rest
  exact (skipStatement_suffix _ _).trans hrest

/-- Induction on the rounds in which tokens are read, of which each leaves fewer tokens. -/
@[elab_as_elim]
theorem items_induction {motive : List Token → Prop} (ts : List Token) (nil : motive [])
    (ended : ∀ ts, ts ≠ [] → (splitDescription ts).2 = [] → motive ts)
    (other : ∀ ts t rest, (splitDescription ts).2 = t :: rest → t.kind.statement? = none →
      motive ts)
    (done : ∀ ts t rest k d ds rest', (splitDescription ts).2 = t :: rest →
      t.kind.statement? = some k →
      (Reader.definition (splitDescription ts).1 k).run rest = .done d ds rest' →
      motive rest' → motive ts)
    (stuck : ∀ ts t rest k fault ds rest', (splitDescription ts).2 = t :: rest →
      t.kind.statement? = some k →
      (Reader.definition (splitDescription ts).1 k).run rest = .stuck fault ds rest' →
      motive (resume (t :: rest) rest') → motive ts) :
    motive ts := by
  induction hn : ts.length using Nat.strongRecOn generalizing ts with
  | _ n ih =>
    by_cases hne : ts = []
    · exact hne ▸ nil
    cases hd : (splitDescription ts).2 with
    | nil => exact ended ts hne hd
    | cons t rest =>
      have hlt : rest.length < n := by
        have hlen := (splitDescription_suffix ts).length_le
        rw [hd, List.length_cons] at hlen
        omega
      cases hk : t.kind.statement? with
      | none => exact other ts t rest hd hk
      | some k =>
        cases ho : (Reader.definition (splitDescription ts).1 k).run rest with
        | done d ds rest' =>
          have hle := (suffix_of_done ho).length_le
          exact done ts t rest k d ds rest' hd hk ho (ih _ (by omega) rest' rfl)
        | stuck fault ds rest' =>
          have hle := (resume_suffix_of_stuck (t := t) ho).length_le
          exact stuck ts t rest k fault ds rest' hd hk ho (ih _ (by omega) _ rfl)

end Round

theorem Diagnostic.kind_of_isFatal {d : Diagnostic} (h : d.isFatal = true) : d.kind = .form := by
  obtain ⟨cause, location⟩ := d
  cases cause with
  | notAStatement found => rfl
  | _ => cases h

/-- A text whose reading stopped early has a diagnostic for it. -/
theorem Parsed.diagnostics_ne_nil_of_aborted {name : String} {rounds : List Item}
    (h : (ofItems name rounds).aborted = true) : (ofItems name rounds).diagnostics ≠ [] := by
  obtain ⟨i, hi, hs⟩ := List.any_eq_true.mp h
  cases i with
  | stopped d =>
    exact List.ne_nil_of_mem (List.mem_flatMap.mpr ⟨_, hi, List.mem_singleton_self d⟩)
  | defined d ds => cases hs
  | givenUp ds => cases hs

/-! ### Documents by name -/

namespace Document

/-- Types and directive definitions stand under their own names. -/
structure Keyed (d : Document) : Prop where
  types : d.types.KeyedBy (·.name.value)
  directives : d.directives.KeyedBy (·.name.value)

theorem Keyed.empty (name : String) : (empty name).Keyed := ⟨.empty, .empty⟩

theorem Keyed.define {d : Document} (h : d.Keyed) (v : Definition) : (d.define v).Keyed := by
  cases v with
  | schema s => exact ⟨h.types, h.directives⟩
  | directive v => exact ⟨h.types, h.directives.insert v⟩
  | type t => exact ⟨h.types.insert t, h.directives⟩

/-- The document with one definition more, or with one in the place of another: the schema, or what
stands under the name of a directive or of a type. All else stays. -/
inductive Gains (d : Document) : Definition → Document → Prop
  | schema (s : Schema) : Gains d (.schema s) ⟨d.name, some s, d.directives, d.types⟩
  | directive {v : DirectiveDefinition} {directives : Table DirectiveDefinition}
      (h : d.directives.Gains v.name.value v directives) :
      Gains d (.directive v) ⟨d.name, d.schema, directives, d.types⟩
  | type {t : TypeDefinition} {types : Table TypeDefinition}
      (h : d.types.Gains t.name.value t types) :
      Gains d (.type t) ⟨d.name, d.schema, d.directives, types⟩

theorem gains_define (d : Document) (v : Definition) : d.Gains v (d.define v) := by
  cases v with
  | schema s => exact .schema s
  | directive v => exact .directive (Table.gains_insert _ _ v)
  | type t => exact .type (Table.gains_insert _ _ t)

theorem Keyed.foldl_define {d : Document} (h : d.Keyed) (vs : List Definition) :
    (vs.foldl Document.define d).Keyed :=
  List.foldlRecOn vs _ h fun _ hd v _ => hd.define v

end Document

theorem keyed_parse (source name : String) : (parse source name).document.Keyed :=
  (Document.Keyed.empty name).foldl_define _

end SchemaLang
