import SchemaLang.Diagnostic

/-! Readers take tokens from the front of a list. What a reader leaves is always an end
of what it was given, so the type says it and no reader has to prove it again. A reader
that gets stuck keeps what it has found so far and the place where it is stuck. -/

namespace SchemaLang

/-- What comes of reading: a value or a fault, the diagnostics found on the way, and the
tokens that are left. -/
inductive Outcome (α : Type) where
  | done (value : α) (found : Diagnostics) (rest : List Token)
  | stuck (fault : Fault) (found : Diagnostics) (rest : List Token)

namespace Outcome

variable {α : Type}

def rest : Outcome α → List Token
  | done _ _ ts => ts
  | stuck _ _ ts => ts

def found : Outcome α → Diagnostics
  | done _ ds _ => ds
  | stuck _ ds _ => ds

/-- The outcome when something else was found before. -/
def after (before : Diagnostics) : Outcome α → Outcome α
  | done a ds ts => done a (before ++ ds) ts
  | stuck f ds ts => stuck f (before ++ ds) ts

@[simp] theorem rest_after (before : Diagnostics) (o : Outcome α) :
    (o.after before).rest = o.rest := by cases o <;> rfl

end Outcome

/-- Reads a value from the front of a list of tokens. -/
def Reader (α : Type) : Type := (ts : List Token) → { o : Outcome α // o.rest <:+ ts }

namespace Reader

variable {α β σ : Type}

/-- What comes of reading from `ts`. -/
def run (r : Reader α) (ts : List Token) : Outcome α := (r ts).1

theorem rest_run_suffix (r : Reader α) (ts : List Token) : (r.run ts).rest <:+ ts := (r ts).2

/-! ### Reading in sequence -/

/-- Takes nothing. -/
def done (a : α) : Reader α := fun ts => ⟨.done a [] ts, List.suffix_refl ts⟩

/-- Reads on after `r` as its value says. -/
def andThen (r : Reader α) (f : α → Reader β) : Reader β := fun ts =>
  match r ts with
  | ⟨.done a ds rest, h⟩ => ⟨(f a rest).1.after ds, by simpa using (f a rest).2.trans h⟩
  | ⟨.stuck fault ds rest, h⟩ => ⟨.stuck fault ds rest, h⟩

instance : Monad Reader where
  pure := done
  bind := andThen

theorem run_pure (a : α) (ts : List Token) : (pure a : Reader α).run ts = .done a [] ts := rfl

theorem run_bind (r : Reader α) (f : α → Reader β) (ts : List Token) :
    (r >>= f).run ts =
      match r.run ts with
      | .done a ds rest => ((f a).run rest).after ds
      | .stuck fault ds rest => .stuck fault ds rest := by
  change (andThen r f ts).1 = _
  unfold andThen run
  split <;> simp_all

/-! ### Single tokens -/

/-- How a diagnostic names what comes next. -/
def describeNext : List Token → String
  | [] => TokenKind.text .eof
  | t :: _ => t.describe

/-- Gets stuck. -/
def fail (fault : Fault) : Reader α := fun ts => ⟨.stuck fault [] ts, List.suffix_refl ts⟩

/-- Gets stuck for want of `what`. -/
def miss (what : Expectation) : Reader α := fun ts => fail (.expected what (describeNext ts)) ts

/-- Records a diagnostic and goes on. -/
def note (d : Diagnostic) : Reader Unit := fun ts => ⟨.done () [d] ts, List.suffix_refl ts⟩

/-- The next token, which is left where it is. -/
def look : Reader (Option Token) := fun ts => ⟨.done ts.head? [] ts, List.suffix_refl ts⟩

/-- Takes the next token, if there is one. -/
def skip : Reader Unit := fun ts => ⟨.done () [] ts.tail, List.tail_suffix ts⟩

/-- Takes the next token if `f` has a value for it. -/
def take (what : Expectation) (f : Token → Option α) : Reader α := do
  match (← look).bind f with
  | some a => skip; return a
  | none => miss what

/-- Takes a token of kind `k`. -/
def expect (k : TokenKind) : Reader Unit :=
  take (.token k) fun t => if t.kind = k then some () else none

/-- Takes a token of kind `k` if it comes next, and tells whether it did. -/
def accept (k : TokenKind) : Reader Bool := do
  if (← look).any (·.kind == k) then
    skip
    return true
  else return false

/-! ### Repetition and nesting -/

/-- A reader that may call itself from further on. A call that has not moved on gets stuck, so
the recursion ends; `body` is meant to take a token before each call. -/
def recursive (what : Expectation) (body : (σ → Reader α) → σ → Reader α) (s : σ)
    (ts : List Token) : { o : Outcome α // o.rest <:+ ts } :=
  body (fun s' rest =>
    if rest.length < ts.length then recursive what body s' rest else miss what rest) s ts
termination_by ts.length

/-- Steps from state to state until a closing mark comes, which is taken too. -/
def untilMark (close : Mark) (step : σ → Reader σ) : σ → Reader σ :=
  recursive (.token (.mark close)) fun again s => do
    if ← accept (.mark close) then return s
    else again (← step s)

/-- Steps from state to state as long as the mark `m` comes before each. -/
def whileMark (m : Mark) (step : σ → Reader σ) : σ → Reader σ :=
  recursive (.token (.mark m)) fun again s => do
    if ← accept (.mark m) then again (← step s)
    else return s

/-- One or more items with the mark `m` between them. -/
def separated (m : Mark) (item : Reader α) : Reader (List α) := do
  whileMark m (fun items => do return items ++ [← item]) [← item]

end Reader

end SchemaLang
