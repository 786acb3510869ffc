import SchemaLang.Proofs.Acceptance

/-! What holds of all words of the grammar. A property that carries over from words to what is put
together from them, one behind the other or in braces, holds of every word if it holds of single
tokens. So no word has a broken token in it, and each word closes the braces that it opens. -/

namespace SchemaLang

open scoped Computability

theorem openBraces_append (d : Nat) (ts us : List Token) :
    openBraces d (ts ++ us) = openBraces (openBraces d ts) us := List.foldl_append

namespace Grammar

/-- A token that is no brace and not broken. -/
def IsInner (k : TokenKind) : Prop := k ≠ .error ∧ k ≠ .mark .lbrace ∧ k ≠ .mark .rbrace

instance : DecidablePred IsInner := fun _ => inferInstanceAs (Decidable (_ ∧ _))

/-- A property of words that carries over to what is put together from them. -/
structure Composes (P : List Token → Prop) : Prop where
  nil : P []
  single : ∀ t : Token, IsInner t.kind → P [t]
  append : ∀ u v, P u → P v → P (u ++ v)
  braces : ∀ l r : Token, ∀ w, l.kind = .mark .lbrace → r.kind = .mark .rbrace → P w →
    P ([l] ++ (w ++ [r]))

/-- The property holds of all words of a language. -/
def All (P : List Token → Prop) (L : Language Token) : Prop := ∀ w ∈ L, P w

namespace Composes

variable {P : List Token → Prop} {L M : Language Token} (h : Composes P)

include h

theorem flatten {ws : List (List Token)} (hws : ∀ w ∈ ws, P w) : P ws.flatten := by
  induction ws with
  | nil => exact h.nil
  | cons w ws ih =>
    rw [List.forall_mem_cons] at hws
    exact h.append _ _ hws.1 (ih hws.2)

theorem one {p : Token → Prop} (hp : ∀ t, p t → IsInner t.kind) : All P (one p) := by
  rintro _ ⟨t, ht, rfl⟩
  exact h.single t (hp t ht)

theorem kind {k : TokenKind} (hk : IsInner k) : All P (kind k) := h.one fun _ ht => ht ▸ hk

theorem word (w : Keyword) : All P (word w) := h.kind ⟨nofun, nofun, nofun⟩

omit h in
theorem add (hL : All P L) (hM : All P M) : All P (L + M) := fun w hw => hw.elim (hL w) (hM w)

theorem mul (hL : All P L) (hM : All P M) : All P (L * M) := by
  rintro _ ⟨u, hu, v, hv, rfl⟩
  exact h.append u v (hL u hu) (hM v hv)

theorem star (hL : All P L) : All P L∗ := by
  rintro _ ⟨ws, rfl, hws⟩
  exact h.flatten fun w hw => hL w (hws w hw)

theorem optional (hL : All P L) : All P (optional L) := add hL fun _ hw => hw ▸ h.nil

theorem separated {m : Mark} (hm : IsInner (.mark m)) (hL : All P L) : All P (separated m L) :=
  h.mul hL (h.star (h.mul (h.kind hm) hL))

theorem inParentheses (hL : All P L) : All P (group .lparen .rparen L) :=
  h.mul (h.kind (by decide)) (h.mul (h.star hL) (h.kind (by decide)))

theorem inBraces (hL : All P L) : All P (group .lbrace .rbrace L) := by
  rintro _ ⟨_, ⟨l, hl, rfl⟩, _, ⟨w, hw, _, ⟨r, hr, rfl⟩, rfl⟩, rfl⟩
  exact h.braces l r w hl hr (h.star hL w hw)

/-! ### The parts of the grammar -/

omit h in
theorem isInner_of_isName {k : TokenKind} (hk : k.isName = true) : IsInner k := by
  refine ⟨?_, ?_, ?_⟩
  all_goals
    rintro rfl
    cases hk

omit h in
theorem isInner_of_isString {k : TokenKind} (hk : k.isString = true) : IsInner k := by
  refine ⟨?_, ?_, ?_⟩
  all_goals
    rintro rfl
    cases hk

theorem name : All P name := h.one fun _ => isInner_of_isName

theorem description : All P description := h.optional (h.one fun _ => isInner_of_isString)

theorem type : All P type := by
  intro w hw
  have hbang : All P (Grammar.optional (mark .bang)) := h.optional (h.kind (by decide))
  induction hw with
  | name hn hb => exact h.mul h.name hbang _ ⟨_, hn, _, hb, rfl⟩
  | list hl _ hr hb ih =>
    have hlist := h.append _ _ (h.kind (by decide) _ hl)
      (h.append _ _ ih (h.kind (by decide) _ hr))
    exact h.append _ _ hlist (hbang _ hb)

theorem value : All P value := by
  intro w hw
  induction hw with
  | atom ha =>
    refine h.one (fun t ht => ?_) _ ha
    rcases ht with hk | hk | hk | hk
    · exact hk ▸ ⟨nofun, nofun, nofun⟩
    · exact hk ▸ ⟨nofun, nofun, nofun⟩
    · exact isInner_of_isString hk
    · exact isInner_of_isName hk
  | list vs hl _ hr ih =>
    exact h.append _ _ (h.kind (by decide) _ hl)
      (h.append _ _ (h.flatten ih) (h.kind (by decide) _ hr))
  | object es hl hn _ hr ih =>
    obtain ⟨l, hl, rfl⟩ := hl
    obtain ⟨r, hr, rfl⟩ := hr
    refine h.braces l r _ hl hr (h.flatten (List.forall_mem_map.mpr fun e he => ?_))
    exact h.append _ _ (h.mul h.name (h.kind (by decide)) _ (hn e he)) (ih e he)

theorem directives : All P directives :=
  h.star (h.mul (h.kind (by decide)) (h.mul h.name
    (h.optional (h.inParentheses (h.mul h.name (h.mul (h.kind (by decide)) h.value))))))

theorem inputValue : All P inputValue :=
  h.mul h.description (h.mul h.name (h.mul (h.kind (by decide)) (h.mul h.type
    (h.mul (h.optional (h.mul (h.kind (by decide)) h.value)) h.directives))))

theorem argumentDefinitions : All P argumentDefinitions :=
  h.optional (h.inParentheses h.inputValue)

theorem field : All P field :=
  h.mul h.description (h.mul h.name (h.mul h.argumentDefinitions
    (h.mul (h.kind (by decide)) (h.mul h.type h.directives))))

theorem names {m : Mark} (hm : IsInner (.mark m)) (hL : All P L) :
    All P (Grammar.optional (mark m) * Grammar.separated m L) :=
  h.mul (h.optional (h.kind hm)) (h.separated hm hL)

theorem typeBody (k : TypeKind) : All P (typeBody k) := by
  have hfieldSet : All P (interfaces * (Grammar.directives * fields)) :=
    h.mul (h.optional (h.mul (h.word _) (h.names (by decide) h.name)))
      (h.mul h.directives (h.optional (h.inBraces h.field)))
  cases k with
  | scalar => exact h.directives
  | object | interface => exact hfieldSet
  | union =>
    exact h.mul h.directives
      (h.optional (h.mul (h.kind (by decide)) (h.names (by decide) h.name)))
  | enum =>
    exact h.mul h.directives (h.optional (h.inBraces (h.mul h.description
      (h.mul (h.one fun _ ht => isInner_of_isName ht.1) h.directives))))
  | input => exact h.mul h.directives (h.optional (h.inBraces h.inputValue))

theorem afterKeyword (k : StatementKind) : All P (afterKeyword k) := by
  cases k with
  | schema =>
    exact h.mul h.directives (h.inBraces (h.mul (add (add (h.word _) (h.word _)) (h.word _))
      (h.mul (h.kind (by decide)) h.name)))
  | directive =>
    have hlocation : All P location := h.one fun t ht => by rw [ht.1]; decide
    exact h.mul (h.kind (by decide)) (h.mul h.name (h.mul h.argumentDefinitions
      (h.mul (h.optional (h.word _)) (h.mul (h.word _) (h.names (by decide) hlocation)))))
  | scalar | object | interface | union | enum | input => exact h.mul h.name (h.typeBody _)

theorem statement : All P statement := by
  intro w hw
  cases w with
  | nil => exact h.nil
  | cons t ts =>
    obtain ⟨s, hs, hts⟩ := cons_mem_statement_iff.mp hw
    obtain ⟨v, hv, -⟩ := TokenKind.statement?_eq_some_iff.mp hs
    exact h.append [t] ts (h.word v _ ⟨t, hv, rfl⟩) (h.afterKeyword s ts hts)

theorem document : All P document := h.star (h.mul h.description h.statement)

end Composes

/-! ### Two properties of words -/

theorem composes_proper : Composes fun w => ∀ t ∈ w, t.kind ≠ .error where
  nil := nofun
  single t ht := List.forall_mem_singleton.mpr ht.1
  append u v hu hv := List.forall_mem_append.mpr ⟨hu, hv⟩
  braces l r w hl hr hw := by
    simp only [List.forall_mem_append, List.forall_mem_singleton, hl, hr]
    exact ⟨nofun, hw, nofun⟩

/-- As many braces are open behind a word as before it. -/
theorem composes_openBraces : Composes fun w => ∀ depth, openBraces depth w = depth where
  nil _ := rfl
  single t ht depth := by
    obtain ⟨k, text, location⟩ := t
    simp [openBraces, ht.2.1, ht.2.2]
  append u v hu hv depth := by rw [openBraces_append, hu, hv]
  braces l r w hl hr hw depth := by
    have hopen : openBraces depth [l] = depth + 1 := by simp [openBraces, hl]
    have hclose : openBraces (depth + 1) [r] = depth := by simp [openBraces, hr]
    rw [openBraces_append, hopen, openBraces_append, hw, hclose]

end Grammar

end SchemaLang
