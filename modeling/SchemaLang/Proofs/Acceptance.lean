import SchemaLang.Proofs.Reader.Productions
import SchemaLang.Proofs.Rounds

/-! A text is read without a fault of form exactly if its tokens are a word of the grammar. -/

namespace SchemaLang

open Reader (Recognizes Clear Avoids continuations)
open scoped Computability

/-! ### Statements -/

theorem TokenKind.statement?_eq_some_iff {k : TokenKind} {s : StatementKind} :
    k.statement? = some s ↔ ∃ w : Keyword, k = .keyword w ∧ w.statement? = some s := by
  cases k <;> simp [TokenKind.statement?]

theorem Grammar.cons_mem_statement_iff {t : Token} {ts : List Token} :
    t :: ts ∈ Grammar.statement ↔
      ∃ s, t.kind.statement? = some s ∧ ts ∈ Grammar.afterKeyword s := by
  have hword : ∀ (w : Keyword) (L : Language Token),
      t :: ts ∈ Grammar.word w * L ↔ t.kind = .keyword w ∧ ts ∈ L := by
    intro w L
    constructor
    · rintro ⟨_, ⟨u, hu, rfl⟩, v, hv, heq⟩
      obtain ⟨rfl, rfl⟩ := List.cons.inj heq
      exact ⟨hu, hv⟩
    · rintro ⟨ht, hts⟩
      exact ⟨[t], ⟨t, ht, rfl⟩, ts, hts, rfl⟩
  simp only [Grammar.statement, Language.mem_add, hword]
  constructor
  · rintro (((((((⟨ht, h⟩ | ⟨ht, h⟩) | ⟨ht, h⟩) | ⟨ht, h⟩) | ⟨ht, h⟩) | ⟨ht, h⟩) | ⟨ht, h⟩) |
      ⟨ht, h⟩)
    all_goals exact ⟨_, by rw [ht]; rfl, h⟩
  · rintro ⟨s, hs, h⟩
    obtain ⟨w, hw, hws⟩ := TokenKind.statement?_eq_some_iff.mp hs
    cases w <;> cases hws <;> simp [hw, h]

theorem Grammar.nil_notMem_statement : [] ∉ Grammar.statement := by
  simp only [Grammar.statement, Language.mem_add]
  rintro (((((((h | h) | h) | h) | h) | h) | h) | h)
  all_goals exact Reader.nil_notMem_mul_left Reader.nil_notMem_one h

/-- A string or a keyword that begins a statement goes on with no definition. -/
theorem Grammar.avoids_document : Avoids Grammar.document continuations := by
  refine .star (Reader.avoids_description_mul ?_ ?_ ?_)
  · simp [continuations]
  · simp [continuations]
  intro t ts h hk
  obtain ⟨s, hs, -⟩ := Grammar.cons_mem_statement_iff.mp h
  obtain ⟨w, hw, hws⟩ := TokenKind.statement?_eq_some_iff.mp hs
  rw [hw] at hk
  cases w <;> simp [continuations, Keyword.statement?] at hk hws

theorem clear_of_document {ts : List Token} (h : ts ∈ Grammar.document) :
    Clear continuations ts := by
  cases ts with
  | nil => simp [Clear]
  | cons t ts => exact Reader.clear_cons.mpr (Grammar.avoids_document t ts h)

/-- Words of the grammar for the rest of a statement, and of a document behind it. -/
theorem Grammar.split_of_mem_document {ts : List Token} (h : ts ∈ Grammar.document)
    (hne : ts ≠ []) :
    ∃ t rest s, (splitDescription ts).2 = t :: rest ∧ t.kind.statement? = some s ∧
      rest ∈ Grammar.afterKeyword s * Grammar.document := by
  obtain ⟨ws, rfl, hw⟩ := Language.mem_kstar_iff_exists_nonempty.mp h
  cases ws with
  | nil => exact absurd rfl hne
  | cons w ws =>
    have hv : ws.flatten ∈ Grammar.document :=
      Language.join_mem_kstar fun y hy => (hw y (List.mem_cons_of_mem _ hy)).1
    obtain ⟨d, hd, x, hx, rfl⟩ := Language.mem_mul.mp (hw w List.mem_cons_self).1
    cases x with
    | nil => exact absurd hx Grammar.nil_notMem_statement
    | cons t u =>
      obtain ⟨s, hs, hu⟩ := Grammar.cons_mem_statement_iff.mp hx
      refine ⟨t, u ++ ws.flatten, s, ?_, hs, ⟨u, hu, ws.flatten, hv, rfl⟩⟩
      rcases hd with ⟨t', ht', rfl⟩ | rfl
      · obtain ⟨v, hv⟩ := Option.isSome_iff_exists.mp (Reader.stringValue?_isSome.mpr ht')
        simp [Reader.splitDescription_cons hv]
      · obtain ⟨w, hw, -⟩ := TokenKind.statement?_eq_some_iff.mp hs
        rw [List.flatten_cons, List.nil_append, List.cons_append,
          Reader.splitDescription_of_clear (by simp [hw])]

/-- The first statement of a document that has one. -/
theorem Grammar.mem_document_iff {ts : List Token} (hne : ts ≠ []) :
    ts ∈ Grammar.document ↔ ∃ t rest s, (splitDescription ts).2 = t :: rest ∧
      t.kind.statement? = some s ∧ rest ∈ Grammar.afterKeyword s * Grammar.document := by
  constructor
  · exact fun h => Grammar.split_of_mem_document h hne
  · rintro ⟨t, _, s, hts, hs, ⟨u, hu, v, hv, rfl⟩⟩
    obtain ⟨⟨d, hd, hdt⟩, -⟩ := Reader.recognizes_description.sound (Nat.lt_succ_self _)
      (Reader.run_description ts)
    have hw : d ++ t :: u ∈ Grammar.description * Grammar.statement :=
      ⟨d, hd, t :: u, Grammar.cons_mem_statement_iff.mpr ⟨s, hs, hu⟩, rfl⟩
    rw [Grammar.document, ← Language.one_add_self_mul_kstar_eq_kstar]
    exact .inr ⟨_, hw, v, hv, by rw [← hdt, hts]; simp⟩

/-! ### Rounds -/

section Definition

variable {description : Option String} {s : StatementKind} {rest rest' : List Token}
  {d : Definition} {ds : Diagnostics}

theorem sound_of_done (h : (Reader.definition description s).run rest = .done d ds rest') :
    (∃ u ∈ Grammar.afterKeyword s, u ++ rest' = rest) ∧ ∀ e ∈ ds, e.kind ≠ .form :=
  (Reader.recognizes_definition description s).sound (Nat.lt_succ_self _) h

/-- The reader takes the statement that the grammar finds, so that the same is left. -/
theorem exists_done_of_mem (h : rest ∈ Grammar.afterKeyword s * Grammar.document) :
    ∃ d ds, ∃ v ∈ Grammar.document,
      (Reader.definition description s).run rest = .done d ds v := by
  obtain ⟨u, hu, v, hv, rfl⟩ := h
  obtain ⟨d, ds, hrun⟩ := (Reader.recognizes_definition description s).complete hu
    (Nat.lt_succ_self _) (clear_of_document hv)
  exact ⟨d, ds, v, hv, hrun⟩

theorem mem_iff_of_done (h : (Reader.definition description s).run rest = .done d ds rest') :
    rest ∈ Grammar.afterKeyword s * Grammar.document ↔ rest' ∈ Grammar.document := by
  constructor
  · intro hrest
    obtain ⟨b, es, v, hv, hrun⟩ := exists_done_of_mem hrest
    rw [h] at hrun
    cases hrun
    exact hv
  · intro hrest'
    obtain ⟨⟨u, hu, rfl⟩, -⟩ := sound_of_done h
    exact ⟨u, hu, rest', hrest', rfl⟩

theorem notMem_of_stuck {fault : Fault}
    (h : (Reader.definition description s).run rest = .stuck fault ds rest') :
    rest ∉ Grammar.afterKeyword s * Grammar.document := by
  intro hrest
  obtain ⟨b, es, v, -, hrun⟩ := exists_done_of_mem hrest
  rw [h] at hrun
  cases hrun

end Definition

/-- The rounds find no fault of form exactly if the tokens are statements of the grammar. -/
theorem items_form_iff (stop : Token) (ts : List Token) :
    (∀ i ∈ items stop ts, ∀ d ∈ i.found, d.kind ≠ .form) ↔ ts ∈ Grammar.document := by
  have hfirst : ∀ {ts t rest k}, (splitDescription ts).2 = t :: rest →
      t.kind.statement? = some k →
      (ts ∈ Grammar.document ↔ rest ∈ Grammar.afterKeyword k * Grammar.document) := by
    intro ts t rest k hd hk
    rw [Grammar.mem_document_iff (ne_nil_of_splitDescription hd)]
    simp [hd, hk]
  induction ts using items_induction with
  | nil => simp [items_nil, Grammar.document, Language.nil_mem_kstar]
  | ended ts hne hd =>
    rw [items_of_end hne hd, Grammar.mem_document_iff hne]
    simp [hd, Item.found, Diagnostic.kind, Cause.kind]
  | other ts t rest hd hk =>
    rw [items_of_other hd hk, Grammar.mem_document_iff (ne_nil_of_splitDescription hd)]
    simp [hd, hk, Item.found, Diagnostic.kind, Cause.kind]
  | done ts t rest k d ds rest' hd hk hrun ih =>
    rw [items_of_done hd hk hrun, List.forall_mem_cons, hfirst hd hk, mem_iff_of_done hrun]
    exact (and_iff_right (sound_of_done hrun).2).trans ih
  | stuck ts t rest k fault ds rest' hd hk hrun ih =>
    rw [items_of_stuck hd hk hrun, hfirst hd hk]
    refine iff_of_false (fun h => ?_) (notMem_of_stuck hrun)
    simpa [Diagnostic.kind, Cause.kind] using h _ List.mem_cons_self
      ⟨.malformed fault, nextLocation stop rest'⟩ (by simp [Item.found, stuckDiagnostics])

/-- A text is read without a fault of form exactly if its tokens are a document of the grammar. -/
theorem parse_form_iff (source name : String) :
    (parse source name).diagnostics.hasClass .form = false ↔
      (Tokens.ofString source).words ∈ Grammar.document := by
  rw [← items_form_iff (Tokens.ofString source).stop]
  simp only [parse, Tokens.parse, Parsed.ofItems, Diagnostics.hasClass, List.any_eq_false,
    List.mem_flatMap, beq_iff_eq]
  constructor
  · exact fun h i hi d hd => h d ⟨i, hi, hd⟩
  · rintro h d ⟨i, hi, hd⟩
    exact h i hi d hd

end SchemaLang
