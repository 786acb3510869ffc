import SchemaLang.Reader.Definition
import SchemaLang.Proofs.Reader.Recognize

/-! The readers against the grammar, part by part. -/

namespace SchemaLang.Reader

open Grammar (mark word kind one optional type)
open scoped Computability

variable {n : ℕ}

/-! ### Names and strings -/

theorem recognizes_name : Recognizes n Reader.name Grammar.name [] :=
  .take fun t => by split <;> simp [*]

theorem recognizes_typeName : Recognizes n typeName Grammar.name [] :=
  .bind_one recognizes_name fun _ => .pure _

theorem stringValue?_isSome {t : Token} : t.stringValue?.isSome ↔ t.kind.isString := by
  unfold Token.stringValue? TokenKind.isString
  split <;> simp_all

theorem splitDescription_cons {t : Token} {ts : List Token} {s : String}
    (h : t.stringValue? = some s) : splitDescription (t :: ts) = (some s, ts) := by
  simp [splitDescription, h]

theorem splitDescription_of_clear {ts : List Token} (h : Clear [.string, .blockString] ts) :
    splitDescription ts = (none, ts) := by
  cases ts with
  | nil => rfl
  | cons t ts =>
    have ht : t.stringValue? = none := by
      rw [clear_cons] at h
      unfold Token.stringValue?
      split <;> simp_all
    simp [splitDescription, ht]

theorem run_description (ts : List Token) :
    Reader.description.run ts = .done (splitDescription ts).1 [] (splitDescription ts).2 := rfl

theorem recognizes_description :
    Recognizes n Reader.description Grammar.description [.string, .blockString] where
  sound := by
    intro ts a ds rest _ h
    rw [run_description] at h
    cases h
    refine ⟨?_, by simp⟩
    cases ts with
    | nil => exact ⟨[], .inr rfl, rfl⟩
    | cons t ts =>
      cases hs : t.stringValue? with
      | none => exact ⟨[], .inr rfl, by simp [splitDescription, hs]⟩
      | some s =>
        refine ⟨[t], .inl ⟨t, stringValue?_isSome.mp (by simp [hs]), rfl⟩, ?_⟩
        simp [splitDescription_cons hs]
  complete := by
    rintro _ rest (⟨t, ht, rfl⟩ | rfl) - hc
    · obtain ⟨s, hs⟩ := Option.isSome_iff_exists.mp (stringValue?_isSome.mpr ht)
      exact ⟨some s, [], by simp [run_description, splitDescription_cons hs]⟩
    · exact ⟨none, [], by simp [run_description, splitDescription_of_clear hc]⟩

/-! ### Types and values -/

theorem avoids_name {bad : List TokenKind} (h : ∀ k ∈ bad, k.isName = false) :
    Avoids Grammar.name bad :=
  .one fun t ht hk => by simp [h _ hk] at ht

theorem nil_notMem_name : [] ∉ Grammar.name := nil_notMem_one

/-- The exclamation mark behind a name or behind a type in brackets. -/
theorem recognizes_bang (r : TypeRef) :
    Recognizes n (do
      if ← accept (.mark .bang) then return r.wrap .nonNull
      return r) (optional (mark .bang)) [.mark .bang] :=
  .accept_bind_one fun b _ => by cases b <;> exact .pure _

theorem recognizes_typeRef : Recognizes n typeRef type [.mark .bang] := by
  induction n with
  | zero => exact ⟨fun h => absurd h (by simp), fun _ h => absurd h (by simp)⟩
  | succ n ih =>
    rw [typeRef_eq, Grammar.type_eq, typeRefBody, add_mul, mul_assoc, mul_assoc]
    refine .accept_bind ?_ (.seq recognizes_typeName recognizes_bang) ?_ ?_
    · refine ih.bind (fun r => .seq .expect fun _ => ?_) (.kind_mul (by simp)) ?_
      · simp only [pure_bind]
        exact recognizes_bang _
      · exact fun h => absurd h (nil_notMem_mul_left nil_notMem_one)
    · exact .mul_left (avoids_name (by simp [TokenKind.isName])) nil_notMem_name
    · exact fun h => absurd h (nil_notMem_mul_left nil_notMem_name)

/-- The tokens that are values by themselves. -/
theorem scalarValue?_isSome {t : Token} : (scalarValue? t).isSome ↔
    (t.kind = .int ∨ t.kind = .float ∨ t.kind.isString ∨ t.kind.isName) := by
  unfold scalarValue? Token.stringValue?
  split <;> simp_all [TokenKind.isString, TokenKind.isName]

theorem avoids_atom {bad : List TokenKind} (h : ∀ k ∈ bad, k.isName = false ∧ k.isString = false)
    (hi : .int ∉ bad) (hf : .float ∉ bad) : Avoids Grammar.atom bad := by
  refine .one ?_
  rintro t (ht | ht | ht | ht) hk
  · exact hi (ht ▸ hk)
  · exact hf (ht ▸ hk)
  · exact absurd ht (by simp [(h _ hk).2])
  · exact absurd ht (by simp [(h _ hk).1])

theorem avoids_value {bad : List TokenKind} (h : ∀ k ∈ bad, k.isName = false ∧ k.isString = false)
    (hi : .int ∉ bad) (hf : .float ∉ bad) (hl : .mark .lbracket ∉ bad) (hb : .mark .lbrace ∉ bad) :
    Avoids Grammar.value bad := by
  rw [Grammar.value_eq]
  exact .add (.kind_mul hl) (.add (.kind_mul hb) (avoids_atom h hi hf))

theorem nil_notMem_object : [] ∉ Grammar.group .lbrace .rbrace Grammar.entry + Grammar.atom := by
  rintro (h | h)
  · exact nil_notMem_mul_left nil_notMem_one h
  · exact nil_notMem_one h

theorem nil_notMem_value : [] ∉ Grammar.value := by
  rw [Grammar.value_eq]
  rintro (h | h)
  · exact nil_notMem_mul_left nil_notMem_one h
  · exact nil_notMem_object h

theorem avoids_entry {bad : List TokenKind} (h : ∀ k ∈ bad, k.isName = false) :
    Avoids Grammar.entry bad :=
  (avoids_name h).mul_left nil_notMem_name

theorem recognizes_entry {α : Type} {value : Reader α} {L : Language Token}
    (h : Recognizes n value L []) :
    Recognizes n (Reader.entry value) (Grammar.name * (mark .colon * L)) [] :=
  .seq recognizes_name fun _ => .seq .expect fun _ => h.bind_one fun _ => .pure _

theorem recognizes_value : Recognizes n Reader.value Grammar.value [] := by
  induction n with
  | zero => exact ⟨fun h => absurd h (by simp), fun _ h => absurd h (by simp)⟩
  | succ n ih =>
    have hentry : Recognizes n (Reader.entry Reader.value) Grammar.entry [] := recognizes_entry ih
    rw [Reader.value_eq, Grammar.value_eq, valueBody]
    refine .accept_bind ?_ (.accept_bind ?_ (.take fun t => scalarValue?_isSome) ?_ ?_) ?_ ?_
    · refine .bind_one (.untilMark (fun s => ih.bind_one fun _ => .pure _) nil_notMem_value ?_
        (by simp) _) fun _ => .pure _
      exact avoids_value (by simp [TokenKind.isName, TokenKind.isString]) (by simp) (by simp)
        (by simp) (by simp)
    · refine .bind_one (.untilMark (fun s => hentry.bind_one fun _ => .pure _)
        (nil_notMem_mul_left nil_notMem_name) ?_ (by simp) _) fun _ => .pure _
      exact avoids_entry (by simp [TokenKind.isName])
    · exact avoids_atom (by simp [TokenKind.isName, TokenKind.isString]) (by simp) (by simp)
    · exact fun h => absurd h nil_notMem_one
    · refine .add (.kind_mul (by simp)) (avoids_atom ?_ (by simp) (by simp))
      simp [TokenKind.isName, TokenKind.isString]
    · exact fun h => absurd h nil_notMem_object

/-! ### Directives -/

theorem recognizes_arguments : Recognizes n Reader.arguments
    (optional (Grammar.group .lparen .rparen Grammar.entry)) [.mark .lparen] :=
  .group (fun _ => (recognizes_entry recognizes_value).bind_one fun _ => .pure _)
    (nil_notMem_mul_left nil_notMem_name) (avoids_entry (by simp [TokenKind.isName])) (by simp) _ _

theorem recognizes_directives :
    Recognizes n Reader.directives Grammar.directives [.mark .atSign, .mark .lparen] :=
  .whileMark (fun _ => .seq recognizes_name fun _ => .bind_one recognizes_arguments fun _ =>
    (Recognizes.pure _).mono (by simp)) (by simp) _

theorem avoids_directives {bad : List TokenKind} (h : .mark .atSign ∉ bad) :
    Avoids Grammar.directives bad :=
  (Avoids.kind_mul h).star

/-! ### Fields and arguments -/

theorem recognizes_addOnce {α : Type} (table : Table α) (m : Name) (item : α) :
    Recognizes n (addOnce table m item) 1 [] := by
  unfold addOnce
  split
  · exact .bind_one (.note (by simp [Diagnostic.kind, Cause.kind])) fun _ => .pure _
  · exact .pure _

theorem recognizes_addArgument (args : List InputValue) (arg : InputValue) :
    Recognizes n (addArgument args arg) 1 [] := by
  unfold addArgument
  split
  · exact .bind_one (.note (by simp [Diagnostic.kind, Cause.kind])) fun _ => .pure _
  · exact .pure _

theorem recognizes_addInterface (rs : List TypeRef) (r : TypeRef) :
    Recognizes n (addInterface rs r) 1 [] := by
  unfold addInterface
  split
  · exact .bind_one (.note (by simp [Diagnostic.kind, Cause.kind])) fun _ => .pure _
  · exact .pure _

/-- A description decides nothing about what a word avoids but strings. -/
theorem avoids_description_mul {M : Language Token} {bad : List TokenKind}
    (hs : .string ∉ bad) (hb : .blockString ∉ bad) (hM : Avoids M bad) :
    Avoids (Grammar.description * M) bad := by
  refine .mul (.optional (.one fun t ht hk => ?_)) fun _ => hM
  revert ht hk
  cases t.kind <;> simp_all [TokenKind.isString]

theorem recognizes_directives_bind {α : Type} (f : List Directive → α) {bad : List TokenKind}
    (hb : [.mark .atSign, .mark .lparen] ⊆ bad) :
    Recognizes n (do return f (← Reader.directives)) Grammar.directives bad :=
  (Recognizes.bind_one recognizes_directives fun _ => (Recognizes.pure _).mono (by simp)).mono hb

theorem recognizes_inputValue : Recognizes n Reader.inputValue Grammar.inputValue
    [.mark .bang, .mark .equals, .mark .atSign, .mark .lparen] := by
  refine .bind recognizes_description (fun _ => .seq recognizes_name fun _ => .seq .expect fun _ =>
    .bind recognizes_typeRef (fun _ => .accept_optional ?_ ?_ ?_ ?_) ?_ ?_) ?_ ?_
  · rw [if_pos rfl, map_eq_pure_bind, bind_assoc]
    simp only [pure_bind]
    exact .seq recognizes_value fun _ => recognizes_directives_bind _ (by simp)
  · simp only [Bool.false_eq_true, if_false, pure_bind]
    exact recognizes_directives_bind _ (by simp)
  · exact avoids_directives (by simp)
  · simp
  · exact .mul (.optional (.kind_mul (by simp))) fun _ => avoids_directives (by simp)
  · simp
  · exact (avoids_name (by simp [TokenKind.isName])).mul_left nil_notMem_name
  · exact fun h => absurd h (nil_notMem_mul_left nil_notMem_name)

theorem nil_notMem_inputValue : [] ∉ Grammar.inputValue :=
  nil_notMem_mul_right (nil_notMem_mul_left nil_notMem_name)

theorem avoids_inputValue {bad : List TokenKind}
    (h : ∀ k ∈ bad, k.isName = false ∧ k.isString = false) :
    Avoids Grammar.inputValue bad :=
  avoids_description_mul (fun hk => absurd (h _ hk).2 (by simp [TokenKind.isString]))
    (fun hk => absurd (h _ hk).2 (by simp [TokenKind.isString]))
    ((avoids_name fun k hk => (h k hk).1).mul_left nil_notMem_name)

theorem recognizes_argumentDefinitions : Recognizes n Reader.argumentDefinitions
    Grammar.argumentDefinitions [.mark .lparen] :=
  .group (fun _ => .bind_one recognizes_inputValue fun _ =>
      (recognizes_addArgument _ _).mono (by simp))
    nil_notMem_inputValue (avoids_inputValue (by simp [TokenKind.isName, TokenKind.isString]))
    (by simp) _ _

theorem recognizes_field : Recognizes n Reader.field Grammar.field
    [.mark .bang, .mark .atSign, .mark .lparen] := by
  refine .bind recognizes_description (fun _ => .seq recognizes_name fun _ =>
    .bind recognizes_argumentDefinitions (fun _ => .seq .expect fun _ =>
      .bind recognizes_typeRef (fun _ => recognizes_directives_bind _ (by simp)) ?_ ?_) ?_ ?_) ?_ ?_
  · exact avoids_directives (by simp)
  · simp
  · exact .kind_mul (by simp)
  · exact fun h => absurd h (nil_notMem_mul_left nil_notMem_one)
  · exact (avoids_name (by simp [TokenKind.isName])).mul_left nil_notMem_name
  · exact fun h => absurd h (nil_notMem_mul_left nil_notMem_name)

theorem nil_notMem_field : [] ∉ Grammar.field :=
  nil_notMem_mul_right (nil_notMem_mul_left nil_notMem_name)

theorem avoids_field {bad : List TokenKind} (h : ∀ k ∈ bad, k.isName = false ∧ k.isString = false) :
    Avoids Grammar.field bad :=
  avoids_description_mul (fun hk => absurd (h _ hk).2 (by simp [TokenKind.isString]))
    (fun hk => absurd (h _ hk).2 (by simp [TokenKind.isString]))
    ((avoids_name fun k hk => (h k hk).1).mul_left nil_notMem_name)

theorem recognizes_fields : Recognizes n Reader.fields Grammar.fields [.mark .lbrace] :=
  .group (fun _ => .bind_one recognizes_field fun _ => (recognizes_addOnce _ _ _).mono (by simp))
    nil_notMem_field (avoids_field (by simp [TokenKind.isName, TokenKind.isString])) (by simp) _ _

theorem recognizes_inputFields :
    Recognizes n Reader.inputFields Grammar.inputFields [.mark .lbrace] :=
  .group (fun _ => .bind_one recognizes_inputValue fun _ =>
      (recognizes_addOnce _ _ _).mono (by simp))
    nil_notMem_inputValue (avoids_inputValue (by simp [TokenKind.isName, TokenKind.isString]))
    (by simp) _ _

theorem recognizes_interfaces : Recognizes n Reader.interfaces Grammar.interfaces
    [.keyword .implements, .mark .amp] := by
  refine .accept_bind ?_ ((Recognizes.pure _).mono (by simp)) avoids_one_word (by simp)
  have hfirst : Recognizes (n - 1) (do addInterface [] (← typeName)) Grammar.name [] :=
    .bind_one recognizes_typeName fun _ => recognizes_addInterface _ _
  have hothers : ∀ first, Recognizes (n - 1)
      (whileMark .amp (fun others => do addInterface others (← typeName)) first)
      (mark .amp * Grammar.name)∗ [.mark .amp] := fun first =>
    .whileMark (fun _ => .bind_one recognizes_typeName fun _ => recognizes_addInterface _ _)
      (by simp) first
  have hall := hfirst.seq hothers
  rw [bind_assoc] at hall
  refine (Recognizes.accept.bind (fun _ => hall) ?_ ?_).mono (by simp)
  · exact (avoids_name (by simp [TokenKind.isName])).mul_left nil_notMem_name
  · exact fun h => absurd h (nil_notMem_mul_left nil_notMem_name)

theorem avoids_fields {bad : List TokenKind} (h : .mark .lbrace ∉ bad) :
    Avoids Grammar.fields bad :=
  .optional (.kind_mul h)

/-! ### Types -/

theorem recognizes_fieldSet : Recognizes n Reader.fieldSet
    (Grammar.interfaces * (Grammar.directives * Grammar.fields))
    [.keyword .implements, .mark .amp, .mark .atSign, .mark .lparen, .mark .lbrace] := by
  refine .bind recognizes_interfaces (fun _ => .bind recognizes_directives (fun _ =>
    (Recognizes.bind_one recognizes_fields fun _ => (Recognizes.pure _).mono (by simp)).mono ?_)
      ?_ ?_) ?_ ?_
  · simp
  · exact avoids_fields (by simp)
  · simp
  · exact .mul (avoids_directives (by simp)) fun _ => avoids_fields (by simp)
  · simp

theorem recognizes_members :
    Recognizes n Reader.members Grammar.members [.mark .equals, .mark .pipe] := by
  refine .accept_bind ?_ ((Recognizes.pure _).mono (by simp)) avoids_one_word (by simp)
  have hall : Recognizes (n - 1) (separated .pipe typeName)
      (Grammar.separated .pipe Grammar.name) [.mark .pipe] :=
    .separated recognizes_typeName (by simp)
  refine (Recognizes.accept.bind (fun _ => hall) ?_ ?_).mono (by simp)
  · exact (avoids_name (by simp [TokenKind.isName])).mul_left nil_notMem_name
  · exact fun h => absurd h (nil_notMem_mul_left nil_notMem_name)

theorem recognizes_enumValueName : Recognizes n enumValueName
    (one fun t => t.kind.isName ∧ ¬ t.kind.isConstant) [] where
  sound := by
    intro ts a ds rest hn h
    rw [enumValueName, run_look_bind] at h
    split at h
    · rw [run_miss] at h
      cases h
    · next hc =>
      obtain ⟨⟨_, ⟨t, ht, rfl⟩, rfl⟩, hds⟩ := Recognizes.sound recognizes_name hn h
      exact ⟨⟨[t], ⟨t, ⟨ht, by simpa using hc⟩, rfl⟩, rfl⟩, hds⟩
  complete := by
    rintro _ rest ⟨t, ⟨ht, hc⟩, rfl⟩ hn hclear
    rw [enumValueName, run_look_bind, if_neg (by simpa using hc)]
    exact Recognizes.complete recognizes_name ⟨t, ht, rfl⟩ hn hclear

theorem avoids_enumValueName {bad : List TokenKind} (h : ∀ k ∈ bad, k.isName = false) :
    Avoids (one fun t => t.kind.isName ∧ ¬ t.kind.isConstant) bad :=
  .one fun t ht hk => by simp [h _ hk] at ht

theorem recognizes_enumValue :
    Recognizes n Reader.enumValue Grammar.enumValue [.mark .atSign, .mark .lparen] := by
  refine .bind recognizes_description (fun _ => .seq recognizes_enumValueName fun _ =>
    recognizes_directives_bind _ (by simp)) ?_ ?_
  · exact (avoids_enumValueName (by simp [TokenKind.isName])).mul_left nil_notMem_one
  · exact fun h => absurd h (nil_notMem_mul_left nil_notMem_one)

theorem recognizes_enumValues :
    Recognizes n Reader.enumValues Grammar.enumValues [.mark .lbrace] :=
  .group (fun _ => .bind_one recognizes_enumValue fun _ => (Recognizes.pure _).mono (by simp))
    (nil_notMem_mul_right (nil_notMem_mul_left nil_notMem_one))
    (avoids_description_mul (by simp) (by simp)
      ((avoids_enumValueName (by simp [TokenKind.isName])).mul_left nil_notMem_one))
    (by simp) _ _

/-- The kinds that could go on behind a whole definition. None of them begins a statement. -/
def continuations : List TokenKind :=
  [.keyword .implements, .mark .amp, .mark .atSign, .mark .lparen, .mark .lbrace, .mark .equals,
    .mark .pipe]

theorem recognizes_typeBody (k : TypeKind) :
    Recognizes n (Reader.typeBody k) (Grammar.typeBody k) continuations := by
  cases k with
  | scalar => exact recognizes_directives_bind _ (by simp [continuations])
  | object | interface =>
    exact (Recognizes.bind_one recognizes_fieldSet fun _ => (Recognizes.pure _).mono (by simp)).mono
      (by simp [continuations])
  | union =>
    refine .bind recognizes_directives (fun _ => (Recognizes.bind_one recognizes_members fun _ =>
      (Recognizes.pure _).mono (by simp)).mono (by simp [continuations])) ?_ ?_
    · exact .optional (.kind_mul (by simp))
    · simp [continuations]
  | enum =>
    refine .bind recognizes_directives (fun _ => (Recognizes.bind_one recognizes_enumValues fun _ =>
      (Recognizes.pure _).mono (by simp)).mono (by simp [continuations])) ?_ ?_
    · exact .optional (.kind_mul (by simp))
    · simp [continuations]
  | input =>
    refine .bind recognizes_directives (fun _ => (Recognizes.bind_one recognizes_inputFields fun _ =>
      (Recognizes.pure _).mono (by simp)).mono (by simp [continuations])) ?_ ?_
    · exact .optional (.kind_mul (by simp))
    · simp [continuations]

theorem recognizes_typeDefinition (d : Option String) (k : TypeKind) :
    Recognizes n (Definition.type <$> typeDefinition d k) (Grammar.name * Grammar.typeBody k)
      continuations := by
  rw [map_eq_pure_bind]
  refine .bind_one (.seq recognizes_name fun _ => ?_) fun _ => (Recognizes.pure _).mono (by simp)
  exact (recognizes_typeBody k).bind_one fun _ => (Recognizes.pure _).mono (by simp)

/-! ### Other definitions -/

theorem recognizes_operationKind : Recognizes n operationKind
    (word .query + word .mutation + word .subscription) [] := by
  have h : word .query + word .mutation + word .subscription = one fun t =>
      t.kind = .keyword .query ∨ t.kind = .keyword .mutation ∨ t.kind = .keyword .subscription := by
    ext ts
    constructor
    · rintro ((⟨t, ht, rfl⟩ | ⟨t, ht, rfl⟩) | ⟨t, ht, rfl⟩)
      · exact ⟨t, .inl ht, rfl⟩
      · exact ⟨t, .inr (.inl ht), rfl⟩
      · exact ⟨t, .inr (.inr ht), rfl⟩
    · rintro ⟨t, ht | ht | ht, rfl⟩
      · exact .inl (.inl ⟨t, ht, rfl⟩)
      · exact .inl (.inr ⟨t, ht, rfl⟩)
      · exact .inr ⟨t, ht, rfl⟩
  rw [h]
  exact .take fun t => by split <;> simp_all

theorem nil_notMem_operationKind : [] ∉ word .query + word .mutation + word .subscription := by
  rintro ((h | h) | h) <;> exact nil_notMem_one h

theorem recognizes_rootOperation : Recognizes n Reader.rootOperation Grammar.rootOperation [] :=
  .seq recognizes_operationKind fun _ => .seq .expect fun _ =>
    .bind_one recognizes_typeName fun _ => .pure _

theorem recognizes_schema (d : Option String) : Recognizes n (Reader.schema d)
    (Grammar.directives * Grammar.group .lbrace .rbrace Grammar.rootOperation) [] := by
  refine .bind recognizes_directives (fun _ => .seq .expect fun _ => .bind_one
    (.untilMark (fun _ => .bind_one recognizes_rootOperation fun _ => .pure _)
      (nil_notMem_mul_left nil_notMem_operationKind) ?_ (by simp) _) fun _ => .pure _) ?_ ?_
  · exact .mul_left (.add (.add (.kind (by simp)) (.kind (by simp))) (.kind (by simp)))
      nil_notMem_operationKind
  · exact .kind_mul (by simp)
  · exact fun h => absurd h (nil_notMem_mul_left nil_notMem_one)

theorem ofText?_isSome {s : String} :
    (DirectiveLocation.ofText? s).isSome ↔ ∃ l : DirectiveLocation, l.text = s := by
  rw [Option.isSome_iff_exists]
  constructor
  · rintro ⟨l, hl⟩
    exact ⟨l, DirectiveLocation.text_of_ofText? hl⟩
  · rintro ⟨l, rfl⟩
    exact ⟨l, DirectiveLocation.ofText?_text l⟩

theorem recognizes_directiveLocation :
    Recognizes n directiveLocation Grammar.location [] where
  sound := by
    intro ts a ds rest hn h
    rw [directiveLocation, run_look_bind] at h
    cases ts with
    | nil => cases h
    | cons t ts =>
      simp only [List.head?_cons] at h
      split at h
      next hk =>
        split at h
        next l hl =>
          rw [run_skip_bind, run_pure] at h
          cases h
          exact ⟨⟨[t], ⟨t, ⟨hk, ofText?_isSome.mp (by simp [hl])⟩, rfl⟩, rfl⟩, by simp⟩
        next => cases h
      next => cases h
  complete := by
    rintro _ rest ⟨t, ⟨hk, l, hl⟩, rfl⟩ - -
    refine ⟨l, [], ?_⟩
    have hskip : (do skip; return l : Reader DirectiveLocation).run (t :: rest) =
        .done l [] rest := by
      rw [run_skip_bind, run_pure, List.tail_cons]
    rw [directiveLocation, run_look_bind, ← hskip]
    simp only [List.singleton_append, List.head?_cons, hk, if_true, ← hl,
      DirectiveLocation.ofText?_text]

theorem recognizes_directiveDefinition (d : Option String) : Recognizes n
    (Reader.directiveDefinition d) (Grammar.afterKeyword .directive) [.mark .pipe] := by
  refine .seq .expect fun _ => .seq recognizes_name fun _ => .bind recognizes_argumentDefinitions
    (fun _ => Recognizes.accept.bind (fun _ => .seq .expect fun _ => Recognizes.accept.bind
      (fun _ => (Recognizes.separated recognizes_directiveLocation (by simp)).bind_one fun _ =>
        (Recognizes.pure _).mono (by simp)) ?_ ?_) ?_ ?_) ?_ ?_
  · refine .mul_left (.one fun t ht => ?_) nil_notMem_one
    simp [ht.1]
  · simp
  · exact .kind_mul (by simp)
  · exact fun h => absurd h (nil_notMem_mul_left nil_notMem_one)
  · exact .mul (.optional (.kind (by simp))) fun _ => .kind_mul (by simp)
  · exact fun h => absurd h (nil_notMem_mul_right (nil_notMem_mul_left nil_notMem_one))

/-- Behind its keyword, a statement of each kind is read exactly as the grammar has it. -/
theorem recognizes_definition (d : Option String) (k : StatementKind) :
    Recognizes n (Reader.definition d k) (Grammar.afterKeyword k) continuations := by
  cases k with
  | schema =>
    rw [Reader.definition, map_eq_pure_bind]
    exact ((recognizes_schema d).bind_one fun _ => .pure _).mono (by simp)
  | directive =>
    rw [Reader.definition, map_eq_pure_bind]
    exact ((recognizes_directiveDefinition d).bind_one fun _ =>
      (Recognizes.pure _).mono (by simp)).mono (by simp [continuations])
  | scalar => exact recognizes_typeDefinition d .scalar
  | object => exact recognizes_typeDefinition d .object
  | interface => exact recognizes_typeDefinition d .interface
  | union => exact recognizes_typeDefinition d .union
  | enum => exact recognizes_typeDefinition d .enum
  | input => exact recognizes_typeDefinition d .input

end SchemaLang.Reader
