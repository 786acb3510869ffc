import SchemaLang.Proofs.Reader.Kept

/-! Readers that tokens are cut off from. What a reader leaves it has not read, unless it got stuck
there, so it makes the same of the tokens before. -/

namespace SchemaLang

namespace Outcome

variable {α : Type} {more : List Token}

/-- The outcome with more tokens behind those that are left. -/
def append (more : List Token) : Outcome α → Outcome α
  | done a ds rest => done a ds (rest ++ more)
  | stuck fault ds rest => stuck fault ds (rest ++ more)

/-- If the reader got stuck, was it before a token? -/
def Inside : Outcome α → Prop
  | done _ _ _ => True
  | stuck _ _ rest => rest ≠ []

theorem append_injective : Function.Injective (append more : Outcome α → Outcome α) := by
  intro o p h
  cases o <;> cases p <;> simp_all [append]

theorem rest_append (o : Outcome α) : (o.append more).rest = o.rest ++ more := by cases o <;> rfl

theorem exists_of_after_eq_append {o p : Outcome α} {ds : Diagnostics}
    (h : o.after ds = p.append more) :
    ∃ q : Outcome α, o = q.append more ∧ q.after ds = p ∧ (p.Inside → q.Inside) := by
  cases p with
  | done a es rest =>
    obtain ⟨fs, ho, rfl⟩ := after_eq_done_iff.mp h
    exact ⟨done a fs rest, ho, rfl, id⟩
  | stuck fault es rest =>
    cases o with
    | done b fs us => cases h
    | stuck fault' fs us =>
      cases h
      exact ⟨stuck fault fs rest, rfl, rfl, id⟩

end Outcome

theorem splitDescription_append {ts : List Token} (h : ts ≠ []) (more : List Token) :
    splitDescription (ts ++ more) = ((splitDescription ts).1, (splitDescription ts).2 ++ more) := by
  have hplace := splitDescription_place id h more
  rwa [show Token.place id = id from rfl, List.map_id, List.map_id] at hplace

namespace Reader

variable {α β σ : Type}

/-- If `r` leaves the tokens `more` at the end, and does not get stuck before the first of them,
then `r'` makes the same of what stands before them. -/
def Cuts (more : List Token) (α : Type) (r r' : Reader α) : Prop :=
  ∀ ts o, o.Inside → r.run (ts ++ more) = o.append more → r'.run ts = o

namespace Cuts

variable {more : List Token}

theorem bind {r r' : Reader α} {k k' : α → Reader β} (hr : Cuts more α r r')
    (hk : ∀ a, Cuts more β (k a) (k' a)) : Cuts more β (r >>= k) (r' >>= k') := by
  intro ts o ho h
  cases hrun : r.run (ts ++ more) with
  | stuck fault ds rest =>
    rw [run_bind_of_stuck hrun] at h
    cases o with
    | done b es us => cases h
    | stuck fault' es us =>
      cases h
      exact run_bind_of_stuck (hr ts (.stuck fault ds us) ho hrun) k'
  | done a ds rest =>
    rw [run_bind_of_done hrun] at h
    obtain ⟨p, hp, rfl, hinside⟩ := Outcome.exists_of_after_eq_append h
    -- what the second reader leaves is an end of what the first one left
    obtain ⟨front, hfront⟩ := (k a).rest_run_suffix rest
    rw [hp, Outcome.rest_append, ← List.append_assoc] at hfront
    subst hfront
    rw [run_bind_of_done (hr ts (.done a ds (front ++ p.rest)) trivial hrun),
      hk a _ p (hinside ho) hp]

/-- What is left ends with `more`, so it is no shorter. -/
theorem length_le {o p : Outcome α} (h : o = p.append more) : more.length ≤ o.rest.length := by
  rw [h, Outcome.rest_append, List.length_append]
  exact Nat.le_add_left _ _

/-- A reader that gets stuck is not cut off before `more` if it was stuck there. -/
theorem not_inside {fault : Fault} {ds : Diagnostics} {o : Outcome α}
    (h : .stuck fault ds more = o.append more) : ¬ o.Inside := by
  have hstuck : .stuck fault ds [] = o := Outcome.append_injective h
  rw [← hstuck]
  exact fun hne => hne rfl

theorem single {r : Reader α} (hr : Single r) : Cuts more α r r := by
  intro ts o ho h
  cases ts with
  | cons t ts =>
    rcases hr.2 t with ⟨a, hrun⟩ | ⟨fault, hrun⟩
    · rw [List.cons_append, hrun] at h
      rw [hrun]
      exact @Outcome.append_injective _ more (.done a [] ts) _ h
    · rw [List.cons_append, hrun] at h
      rw [hrun]
      exact @Outcome.append_injective _ more (.stuck fault [] (t :: ts)) _ h
  | nil =>
    exfalso
    rw [List.nil_append] at h
    cases more with
    | nil =>
      obtain ⟨fault, hrun⟩ := hr.1
      exact not_inside (hrun ▸ h) ho
    | cons m more =>
      rcases hr.2 m with ⟨a, hrun⟩ | ⟨fault, hrun⟩
      · exact absurd (length_le (hrun more ▸ h)) (Nat.not_succ_le_self _)
      · exact not_inside (hrun more ▸ h) ho

theorem accept (k : TokenKind) : Cuts more Bool (accept k) (accept k) := by
  intro ts o _ h
  rw [run_accept] at h ⊢
  cases ts with
  | cons t ts =>
    have hsame : Next k (t :: ts ++ more) ↔ Next k (t :: ts) := by
      rw [List.cons_append, next_cons, next_cons]
    by_cases hk : Next k (t :: ts)
    · rw [if_pos (hsame.mpr hk)] at h
      rw [if_pos hk]
      exact @Outcome.append_injective _ more (.done true [] ts) _ h
    · rw [if_neg (hsame.not.mpr hk)] at h
      rw [if_neg hk]
      exact @Outcome.append_injective _ more (.done false [] (t :: ts)) _ h
  | nil =>
    rw [if_neg not_next_nil]
    split at h
    next hk => exact absurd (length_le h) (Nat.not_le_of_lt (length_tail_lt_of_next hk))
    next => exact @Outcome.append_injective _ more (.done false [] []) _ h

theorem description : Cuts more (Option String) description description := by
  intro ts o _ h
  rw [run_description] at h ⊢
  cases ts with
  | cons t ts =>
    rw [splitDescription_append (List.cons_ne_nil t ts)] at h
    exact @Outcome.append_injective _ more (.done _ [] (splitDescription (t :: ts)).2) _ h
  | nil =>
    cases more with
    | nil => exact @Outcome.append_injective _ [] (.done none [] []) _ h
    | cons m more =>
      rw [List.nil_append, splitDescription] at h
      cases hm : m.stringValue? with
      | none =>
        rw [hm] at h
        exact @Outcome.append_injective _ (m :: more) (.done none [] []) _ h
      | some s =>
        rw [hm] at h
        exact absurd (length_le h) (Nat.not_succ_le_self _)

theorem below {n m : Nat} {what : Expectation} {r r' : Reader α}
    (hr : ∀ ts, ts.length < n → ∀ o, o.Inside → r.run (ts ++ more) = o.append more → r'.run ts = o)
    (hm : m = n + more.length) : Cuts more α (below m what r) (below n what r') := by
  intro ts o ho h
  by_cases hlt : ts.length < n
  · rw [run_below (by simp; omega)] at h
    rw [run_below hlt]
    exact hr ts hlt o ho h
  · rw [run_below_of_not (by simp; omega)] at h
    rw [run_below_of_not hlt]
    cases ts with
    | nil => exact absurd ho (not_inside h)
    | cons t ts => exact @Outcome.append_injective _ more (.stuck _ [] (t :: ts)) _ h

theorem recursive {what : Expectation} {body body' : (σ → Reader α) → σ → Reader α}
    (hbody : ∀ again again', (∀ s, Cuts more α (again s) (again' s)) →
      ∀ s, Cuts more α (body again s) (body' again' s)) (s : σ) :
    Cuts more α (recursive what body s) (recursive what body' s) := by
  intro ts
  induction hn : ts.length using Nat.strongRecOn generalizing ts s with
  | _ n ih =>
    intro o ho h
    rw [run_recursive] at h ⊢
    refine hbody _ _ (fun s' => ?_) s ts o ho h
    apply below
    · exact fun us hlt => ih us.length (hn ▸ hlt) s' us rfl
    · exact List.length_append

end Cuts

/-- The readers of all statements have tokens cut off that they leave. -/
theorem kept_cuts (more : List Token) : Kept (Cuts more) where
  pure a ts _ _ h := @Outcome.append_injective _ more (.done a [] ts) _ h
  bind := Cuts.bind
  single := Cuts.single
  accept := Cuts.accept
  description := Cuts.description
  note d _ ts _ _ h := @Outcome.append_injective _ more (.done () [d] ts) _ h
  recursive := Cuts.recursive

end Reader

end SchemaLang
