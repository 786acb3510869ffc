import Mathlib.Logic.Function.Iterate
import SchemaLang.Reader.Constant

/-! What comes of running readers, as equations: single tokens, the two loops, and the two
readers that call themselves. A loop or a reader that calls itself is guarded, and gets
stuck where it would go on without having taken a token. Where it always takes one before it
goes on, the guard can be dropped, and the calls are nested no deeper than there are tokens. -/

namespace SchemaLang

namespace Outcome

variable {α : Type}

@[simp] theorem after_nil (o : Outcome α) : o.after [] = o := by cases o <;> rfl

@[simp] theorem after_after (before ds : Diagnostics) (o : Outcome α) :
    (o.after ds).after before = o.after (before ++ ds) := by
  cases o <;> simp [after]

@[simp] theorem after_done (before ds : Diagnostics) (a : α) (ts : List Token) :
    (done a ds ts).after before = done a (before ++ ds) ts := rfl

@[simp] theorem after_stuck (before ds : Diagnostics) (f : Fault) (ts : List Token) :
    (stuck f ds ts : Outcome α).after before = stuck f (before ++ ds) ts := rfl

theorem after_eq_done_iff {before ds : Diagnostics} {o : Outcome α} {a : α} {ts : List Token} :
    o.after before = done a ds ts ↔ ∃ es, o = done a es ts ∧ before ++ es = ds := by
  cases o with
  | done b es us =>
    simp only [after_done, done.injEq]
    constructor
    · rintro ⟨rfl, rfl, rfl⟩
      exact ⟨es, ⟨rfl, rfl, rfl⟩, rfl⟩
    · rintro ⟨fs, ⟨rfl, rfl, rfl⟩, rfl⟩
      exact ⟨rfl, rfl, rfl⟩
  | stuck f es us => simp

end Outcome

namespace Reader

variable {α β σ : Type}

/-! ### Reading in sequence -/

@[ext] theorem ext {r s : Reader α} (h : ∀ ts, r.run ts = s.run ts) : r = s :=
  funext fun ts => Subtype.ext (h ts)

theorem run_bind_of_done {r : Reader α} {ts rest : List Token} {a : α} {ds : Diagnostics}
    (h : r.run ts = .done a ds rest) (f : α → Reader β) :
    (r >>= f).run ts = ((f a).run rest).after ds := by
  rw [run_bind, h]

theorem run_bind_of_stuck {r : Reader α} {ts rest : List Token} {fault : Fault}
    {ds : Diagnostics} (h : r.run ts = .stuck fault ds rest) (f : α → Reader β) :
    (r >>= f).run ts = .stuck fault ds rest := by
  rw [run_bind, h]

instance : LawfulMonad Reader := LawfulMonad.mk' Reader
  (by
    intro α r
    ext ts
    change (r >>= pure).run ts = r.run ts
    cases h : r.run ts with
    | done a ds rest => rw [run_bind_of_done h, run_pure, Outcome.after_done, List.append_nil]
    | stuck fault ds rest => rw [run_bind_of_stuck h])
  (by
    intro α β a f
    ext ts
    rw [run_bind_of_done (run_pure a ts), Outcome.after_nil])
  (by
    intro α β γ r f g
    ext ts
    cases h : r.run ts with
    | stuck fault ds rest =>
      rw [run_bind_of_stuck h, run_bind_of_stuck (run_bind_of_stuck h f)]
    | done a ds rest =>
      rw [run_bind_of_done h]
      cases hf : (f a).run rest with
      | stuck fault es us =>
        rw [run_bind_of_stuck hf, run_bind_of_stuck (by rw [run_bind_of_done h, hf]; rfl)]
        rfl
      | done b es us =>
        rw [run_bind_of_done hf, run_bind_of_done (by rw [run_bind_of_done h, hf]; rfl),
          Outcome.after_after])

theorem rest_suffix_of_done {r : Reader α} {ts rest : List Token} {a : α} {ds : Diagnostics}
    (h : r.run ts = .done a ds rest) : rest <:+ ts := by
  have hs := r.rest_run_suffix ts
  rwa [h] at hs

/-- Two continuations that agree on what is left give the same. -/
theorem run_bind_congr_of_done (r : Reader α) {f g : α → Reader β} {ts : List Token}
    (h : ∀ a ds rest, r.run ts = .done a ds rest → (f a).run rest = (g a).run rest) :
    (r >>= f).run ts = (r >>= g).run ts := by
  cases hr : r.run ts with
  | stuck fault ds rest => rw [run_bind_of_stuck hr, run_bind_of_stuck hr]
  | done a ds rest => rw [run_bind_of_done hr, run_bind_of_done hr, h a ds rest hr]

/-- Two continuations that agree on all that may be left give the same. -/
theorem run_bind_congr (r : Reader α) {f g : α → Reader β} {ts : List Token}
    (h : ∀ a rest, rest <:+ ts → (f a).run rest = (g a).run rest) :
    (r >>= f).run ts = (r >>= g).run ts :=
  run_bind_congr_of_done r fun a _ rest hr => h a rest (rest_suffix_of_done hr)

/-! ### Single tokens -/

/-- Does a token of kind `k` come next? -/
def Next (k : TokenKind) (ts : List Token) : Prop := ∃ t ∈ ts.head?, t.kind = k

@[simp] theorem next_cons {k : TokenKind} {t : Token} {ts : List Token} :
    Next k (t :: ts) ↔ t.kind = k := by simp [Next]

@[simp] theorem not_next_nil {k : TokenKind} : ¬ Next k [] := by simp [Next]

instance (k : TokenKind) (ts : List Token) : Decidable (Next k ts) :=
  decidable_of_iff (ts.head?.any fun t => t.kind = k) (by cases ts <;> simp)

theorem run_look (ts : List Token) : look.run ts = .done ts.head? [] ts := rfl

theorem run_skip (ts : List Token) : skip.run ts = .done () [] ts.tail := rfl

theorem run_note (d : Diagnostic) (ts : List Token) : (note d).run ts = .done () [d] ts := rfl

theorem run_miss (what : Expectation) (ts : List Token) :
    (miss what : Reader α).run ts = .stuck (.expected what (describeNext ts)) [] ts := rfl

theorem run_look_bind (f : Option Token → Reader β) (ts : List Token) :
    (look >>= f).run ts = (f ts.head?).run ts := by
  rw [run_bind_of_done (run_look ts), Outcome.after_nil]

theorem run_skip_bind (r : Reader β) (ts : List Token) :
    (skip >>= fun _ => r).run ts = r.run ts.tail := by
  rw [run_bind_of_done (run_skip ts), Outcome.after_nil]

theorem run_take (what : Expectation) (f : Token → Option α) (ts : List Token) :
    (take what f).run ts = match ts.head?.bind f with
      | some a => .done a [] ts.tail
      | none => .stuck (.expected what (describeNext ts)) [] ts := by
  unfold take
  rw [run_look_bind]
  cases ts.head?.bind f with
  | some a => exact (run_skip_bind _ ts).trans (run_pure a ts.tail)
  | none => exact run_miss what ts

theorem run_accept (k : TokenKind) (ts : List Token) : (accept k).run ts =
    if Next k ts then .done true [] ts.tail else .done false [] ts := by
  unfold accept
  rw [run_look_bind]
  cases ts with
  | nil => rfl
  | cons t ts =>
    by_cases hk : t.kind = k
    · simp only [List.head?_cons, Option.any_some, hk, BEq.rfl, if_true, next_cons]
      rw [run_skip_bind, run_pure]
    · simp only [List.head?_cons, Option.any_some, beq_iff_eq, hk, if_false, next_cons]
      rw [run_pure]

theorem run_accept_bind (k : TokenKind) (f : Bool → Reader β) (ts : List Token) :
    (accept k >>= f).run ts =
      if Next k ts then (f true).run ts.tail else (f false).run ts := by
  have h := run_accept k ts
  split at h
  next hk => rw [run_bind_of_done h, Outcome.after_nil, if_pos hk]
  next hk => rw [run_bind_of_done h, Outcome.after_nil, if_neg hk]

/-! ### Loops -/

/-- A reader that gets stuck unless the tokens are fewer than `n`. -/
def below (n : Nat) (what : Expectation) (r : Reader α) : Reader α := fun ts =>
  if ts.length < n then r ts else miss what ts

theorem run_below {n : Nat} {what : Expectation} {r : Reader α} {ts : List Token}
    (h : ts.length < n) : (below n what r).run ts = r.run ts := by
  simp [below, run, h]

theorem run_below_of_not {n : Nat} {what : Expectation} {r : Reader α} {ts : List Token}
    (h : ¬ ts.length < n) : (below n what r).run ts = (miss what : Reader α).run ts := by
  simp [below, run, h]

theorem run_recursive (what : Expectation) (body : (σ → Reader α) → σ → Reader α) (s : σ)
    (ts : List Token) :
    Reader.run (recursive what body s) ts =
      (body (fun s' => below ts.length what (recursive what body s')) s).run ts := by
  unfold run
  rw [recursive]
  rfl

/-- What the body does with tokens depends on the calls it makes behind one of them only. -/
def CallsAhead (body : (σ → Reader α) → σ → Reader α) : Prop :=
  ∀ again again' s ts,
    (∀ s' us, us.length < ts.length → (again s').run us = (again' s').run us) →
      (body again s).run ts = (body again' s).run ts

namespace CallsAhead

variable {body : (σ → Reader α) → σ → Reader α} (h : CallsAhead body)

include h

/-- The recursion without its guard. -/
theorem recursive_eq (what : Expectation) :
    (recursive what body : σ → Reader α) = body (recursive what body) := by
  funext s
  refine Reader.ext fun ts => (run_recursive what body s ts).trans ?_
  exact h _ _ s ts fun s' us hlt => run_below hlt

/-- Calls are nested no deeper than there are tokens: whatever stands for the deeper ones, none is
made. -/
theorem run_iterate {r : σ → Reader α} (hr : r = body r) (bottom : σ → Reader α) {n : Nat}
    {ts : List Token} (hn : ts.length < n) (s : σ) :
    (body^[n] bottom s).run ts = (r s).run ts := by
  induction n generalizing ts s with
  | zero => exact absurd hn (Nat.not_lt_zero _)
  | succ n ih =>
    rw [Function.iterate_succ_apply', hr]
    exact h _ _ s ts fun s' us hlt => ih (by omega) s'

end CallsAhead

/-- A round of a loop up to a closing mark, behind which `again` goes on. -/
def untilMarkBody (close : Mark) (step : σ → Reader σ) (again : σ → Reader σ) (s : σ) :
    Reader σ := do
  if ← accept (.mark close) then return s
  else again (← step s)

/-- A round of a loop as long as a mark comes, behind which `again` goes on. -/
def whileMarkBody (m : Mark) (step : σ → Reader σ) (again : σ → Reader σ) (s : σ) : Reader σ := do
  if ← accept (.mark m) then again (← step s)
  else return s

theorem run_untilMark (close : Mark) (step : σ → Reader σ) (s : σ) (ts : List Token) :
    (untilMark close step s).run ts =
      if Next (.mark close) ts then .done s [] ts.tail
      else (step s >>= fun s' =>
        below ts.length (.token (.mark close)) (untilMark close step s')).run ts := by
  rw [untilMark, run_recursive, run_accept_bind]
  rfl

theorem length_tail_lt_of_next {k : TokenKind} {ts : List Token} (h : Next k ts) :
    ts.tail.length < ts.length := by
  cases ts with
  | nil => exact absurd h not_next_nil
  | cons t ts => simp

theorem callsAhead_whileMarkBody (m : Mark) (step : σ → Reader σ) :
    CallsAhead (whileMarkBody m step) := by
  intro again again' s ts hagain
  rw [whileMarkBody, whileMarkBody, run_accept_bind, run_accept_bind]
  split
  next h =>
    refine run_bind_congr _ fun s' rest hr => ?_
    exact hagain s' rest (Nat.lt_of_le_of_lt hr.length_le (length_tail_lt_of_next h))
  next h => rfl

theorem whileMark_eq (m : Mark) (step : σ → Reader σ) :
    whileMark m step = whileMarkBody m step (whileMark m step) :=
  (callsAhead_whileMarkBody m step).recursive_eq _

theorem run_whileMark (m : Mark) (step : σ → Reader σ) (s : σ) (ts : List Token) :
    (whileMark m step s).run ts =
      if Next (.mark m) ts then (step s >>= whileMark m step).run ts.tail
      else .done s [] ts := by
  rw [whileMark_eq, whileMarkBody, run_accept_bind, ← whileMark_eq]
  rfl

/-- The reader takes a token unless it gets stuck. -/
def Advances (r : Reader α) : Prop :=
  ∀ {ts a ds rest}, r.run ts = .done a ds rest → rest.length < ts.length

theorem Advances.bind {r : Reader α} (h : Advances r) (f : α → Reader β) : Advances (r >>= f) := by
  intro ts b ds rest hrun
  cases hr : r.run ts with
  | stuck fault es us =>
    rw [run_bind_of_stuck hr] at hrun
    cases hrun
  | done a es us =>
    rw [run_bind_of_done hr, Outcome.after_eq_done_iff] at hrun
    obtain ⟨fs, hrun, -⟩ := hrun
    exact Nat.lt_of_le_of_lt (rest_suffix_of_done hrun).length_le (h hr)

theorem callsAhead_untilMarkBody (close : Mark) {step : σ → Reader σ}
    (hstep : ∀ s, Advances (step s)) : CallsAhead (untilMarkBody close step) := by
  intro again again' s ts hagain
  rw [untilMarkBody, untilMarkBody, run_accept_bind, run_accept_bind]
  split
  next => rfl
  next =>
    exact run_bind_congr_of_done _ fun s' ds rest hr => hagain s' rest (hstep s hr)

/-- A loop of which each step takes a token needs no guard. -/
theorem untilMark_eq (close : Mark) {step : σ → Reader σ} (hstep : ∀ s, Advances (step s)) :
    untilMark close step = untilMarkBody close step (untilMark close step) :=
  (callsAhead_untilMarkBody close hstep).recursive_eq _

/-- A loop looks at its step on ends of the tokens only. -/
theorem run_untilMark_congr {close : Mark} {step step' : σ → Reader σ} (ts : List Token) (s : σ)
    (h : ∀ s us, us <:+ ts → (step s).run us = (step' s).run us) :
    (untilMark close step s).run ts = (untilMark close step' s).run ts := by
  induction hn : ts.length using Nat.strongRecOn generalizing ts s with
  | _ n ih =>
    rw [run_untilMark, run_untilMark]
    split
    · rfl
    · have hb : ∀ s' rest, rest <:+ ts →
          (below ts.length (.token (.mark close)) (untilMark close step s')).run rest =
            (below ts.length (.token (.mark close)) (untilMark close step' s')).run rest := by
        intro s' rest hr
        by_cases hlt : rest.length < ts.length
        · rw [run_below hlt, run_below hlt]
          exact ih _ (hn ▸ hlt) rest s' (fun s us hu => h s us (hu.trans hr)) rfl
        · rw [run_below_of_not hlt, run_below_of_not hlt]
      rw [run_bind_congr _ hb, run_bind, run_bind, h s ts (List.suffix_refl ts)]

theorem run_untilMark_bind_congr {close : Mark} {step step' : σ → Reader σ} (s : σ)
    (f : σ → Reader β) {ts : List Token}
    (h : ∀ s us, us <:+ ts → (step s).run us = (step' s).run us) :
    (untilMark close step s >>= f).run ts = (untilMark close step' s >>= f).run ts := by
  rw [run_bind, run_bind, run_untilMark_congr ts s h]

/-! ### Readers that call themselves -/

/-- The reader for a type, with the reader for the type in brackets as a parameter. -/
def typeRefBody (again : Reader TypeRef) : Reader TypeRef := do
  let inner ←
    if ← accept (.mark .lbracket) then do
      let r ← again
      expect (.mark .rbracket)
      pure (r.wrap .list)
    else typeName
  if ← accept (.mark .bang) then return inner.wrap .nonNull
  return inner

theorem callsAhead_typeRefBody : CallsAhead fun again (_ : Unit) => typeRefBody (again ()) := by
  intro again again' _ ts hagain
  unfold typeRefBody
  rw [run_accept_bind, run_accept_bind]
  split
  next h =>
    simp only [if_true]
    rw [run_bind, run_bind, hagain () _ (length_tail_lt_of_next h)]
  next h => rfl

theorem typeRef_eq : typeRef = typeRefBody typeRef :=
  congrFun (callsAhead_typeRefBody.recursive_eq .name) ()

/-- The reader for a value, with the reader for the values inside as a parameter. -/
def valueBody (again : Reader Value) : Reader Value := do
  if ← accept (.mark .lbracket) then
    return .list (← untilMark .rbracket (fun items => do return items ++ [← again]) [])
  if ← accept (.mark .lbrace) then
    return .object (← untilMark .rbrace (fun entries => do
      let (n, v) ← entry again
      return entries ++ [(n.value, v)]) [])
  take .value scalarValue?

theorem callsAhead_valueBody : CallsAhead fun again (_ : Unit) => valueBody (again ()) := by
  intro again again' _ ts hagain
  unfold valueBody
  rw [run_accept_bind, run_accept_bind]
  split
  next h =>
    simp only [if_true]
    refine run_untilMark_bind_congr _ _ fun items us hu => ?_
    have hlt := Nat.lt_of_le_of_lt hu.length_le (length_tail_lt_of_next h)
    rw [run_bind, run_bind, hagain () us hlt]
  next =>
    simp only [Bool.false_eq_true, if_false]
    rw [run_accept_bind, run_accept_bind]
    split
    next h =>
      simp only [if_true]
      refine run_untilMark_bind_congr _ _ fun entries us hu => ?_
      simp only [entry, bind_assoc]
      refine run_bind_congr _ fun n vs hv => run_bind_congr _ fun _ ws hw => ?_
      have hlt := Nat.lt_of_le_of_lt (hw.trans (hv.trans hu)).length_le (length_tail_lt_of_next h)
      rw [run_bind, run_bind, hagain () ws hlt]
    next => rfl

theorem value_eq : value = valueBody value :=
  congrFun (callsAhead_valueBody.recursive_eq .value) ()

end Reader

end SchemaLang
