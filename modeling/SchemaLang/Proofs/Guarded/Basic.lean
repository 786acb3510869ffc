import SchemaLang.Proofs.Text.Closing

/-! Guarded computation. A step that may go wrong is taken only behind a guard: a slice must be in
range and may not cut a character in two, a sum must fit in a 32-bit word, and a difference may not
fall below zero. A run in which some guard fails ends with the breach, so that a run with a value is
one in which no guard fails. -/

namespace SchemaLang

/-- What goes wrong where a guard fails. -/
inductive Breach where
  /-- A slice from byte to byte that is out of range or cuts a character in two. -/
  | slice (start stop : Nat)
  /-- A sum too large for a word. -/
  | overflow
  /-- A difference below zero. -/
  | underflow
  /-- A branch that no input leads to. -/
  | unreachable
  /-- A loop that goes round without moving on. -/
  | stalled
  deriving DecidableEq, Repr

abbrev Guarded : Type → Type := Except Breach

theorem byteCount_cons (c : Char) (cs : List Char) :
    byteCount (c :: cs) = c.utf8Size + byteCount cs := by
  rw [byteCount, List.map_cons, List.sum_cons, byteCount]

theorem one_le_byteCount_cons (c : Char) (cs : List Char) : 1 ≤ byteCount (c :: cs) := by
  have hpos := c.utf8Size_pos
  rw [byteCount_cons]
  omega

namespace Guarded

variable {α β σ : Type}

theorem ok_bind (a : α) (f : α → Guarded β) : (Except.ok a >>= f) = f a := rfl

/-! ### Arithmetic -/

def add (a b : Nat) : Guarded Nat :=
  if a + b < Span.wordCount then .ok (a + b) else .error .overflow

def sub (a b : Nat) : Guarded Nat := if b ≤ a then .ok (a - b) else .error .underflow

theorem add_of_lt {a b : Nat} (h : a + b < Span.wordCount) : add a b = .ok (a + b) := if_pos h

theorem sub_of_le {a b : Nat} (h : b ≤ a) : sub a b = .ok (a - b) := if_pos h

/-! ### Slices -/

/-- A text cut in two before its byte `n`, if that is where a character begins or the text ends. -/
def cutBytes? : Nat → List Char → Option (List Char × List Char)
  | 0, cs => some ([], cs)
  | _ + 1, [] => none
  | n + 1, c :: cs =>
    if c.utf8Size ≤ n + 1 then
      (cutBytes? (n + 1 - c.utf8Size) cs).map fun cut => (c :: cut.1, cut.2)
    else none
termination_by _ cs => cs

/-- The part of a text from the byte `start` up to the byte `stop`. -/
def slice (cs : List Char) (start stop : Nat) : Guarded (List Char) :=
  match (cutBytes? stop cs).bind fun cut => cutBytes? start cut.1 with
  | some (_, text) => .ok text
  | none => .error (.slice start stop)

/-- The bytes from the byte `start` on. -/
def sliceBytes (bs : List Char) (start : Nat) : Guarded (List Char) :=
  if start ≤ bs.length then .ok (bs.drop start) else .error (.slice start bs.length)

theorem cutBytes?_append (us vs : List Char) :
    cutBytes? (byteCount us) (us ++ vs) = some (us, vs) := by
  induction us with
  | nil => rw [byteCount, List.map_nil, List.sum_nil, List.nil_append, cutBytes?]
  | cons c us ih =>
    have hpos := c.utf8Size_pos
    have hcount := byteCount_cons c us
    obtain ⟨n, hn⟩ : ∃ n, byteCount (c :: us) = n + 1 := ⟨byteCount (c :: us) - 1, by omega⟩
    have hsub : n + 1 - c.utf8Size = byteCount us := by omega
    rw [hn, List.cons_append, cutBytes?, if_pos (by omega), hsub, ih]
    rfl

theorem of_cutBytes? {n : Nat} {cs us vs : List Char} (h : cutBytes? n cs = some (us, vs)) :
    cs = us ++ vs ∧ byteCount us = n := by
  induction n, cs using cutBytes?.induct generalizing us vs with
  | case1 cs =>
    rw [cutBytes?] at h
    cases h
    exact ⟨rfl, rfl⟩
  | case2 n =>
    rw [cutBytes?] at h
    cases h
  | case3 n c cs hc ih =>
    rw [cutBytes?, if_pos hc, Option.map_eq_some_iff] at h
    obtain ⟨⟨us', vs'⟩, hcut, heq⟩ := h
    cases heq
    obtain ⟨rfl, hcount⟩ := ih hcut
    refine ⟨rfl, ?_⟩
    dsimp only
    rw [byteCount_cons]
    omega
  | case4 n c cs hc =>
    rw [cutBytes?, if_neg hc] at h
    cases h

/-- A slice is taken exactly if it is a part of the text with so many bytes before it and at its
end: both ends are in range, the start is not behind the stop, and no character is cut. -/
theorem slice_eq_ok_iff {cs text : List Char} {start stop : Nat} :
    slice cs start stop = .ok text ↔
      ∃ us vs, cs = us ++ text ++ vs ∧ byteCount us = start ∧ byteCount (us ++ text) = stop := by
  constructor
  · intro h
    unfold slice at h
    split at h
    next us text' hcut =>
      obtain ⟨⟨front, vs⟩, hback, hfront⟩ := Option.bind_eq_some_iff.mp hcut
      cases h
      obtain ⟨rfl, hstop⟩ := of_cutBytes? hback
      obtain ⟨rfl, hstart⟩ := of_cutBytes? hfront
      exact ⟨us, vs, rfl, hstart, hstop⟩
    next => cases h
  · rintro ⟨us, vs, rfl, rfl, rfl⟩
    rw [slice, cutBytes?_append, Option.bind_some, cutBytes?_append]

/-! ### Loops -/

/-- Goes from state to state until a value comes, each state being smaller than the one before. -/
def loop (size : σ → Nat) (step : σ → Guarded (α ⊕ σ)) (s : σ) : Guarded α :=
  match step s with
  | .error breach => .error breach
  | .ok (.inl a) => .ok a
  | .ok (.inr s') => if size s' < size s then loop size step s' else .error .stalled
termination_by size s

variable {size : σ → Nat} {step : σ → Guarded (α ⊕ σ)} {s s' : σ}

theorem loop_of_stop {a : α} (h : step s = .ok (.inl a)) : loop size step s = .ok a := by
  rw [loop, h]

theorem loop_of_next (h : step s = .ok (.inr s')) (hlt : size s' < size s) :
    loop size step s = loop size step s' := by
  rw [loop, h]
  exact if_pos hlt

end Guarded

end SchemaLang
