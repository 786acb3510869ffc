import SchemaLang.Proofs.Reader.Run

/-! What readers find and what they make of tokens of which something is known that is known of
their ends too. For each way of putting readers together there is a rule; loops and readers that
call themselves keep an invariant. -/

namespace SchemaLang

variable {α β σ : Type} {D : Diagnostic → Prop} {P P' : α → Prop} {Q : β → Prop}

/-! ### Outcomes -/

namespace Outcome

/-- Whatever was found has the property `D`, and if something was made this has the property `P`. -/
structure Has (D : Diagnostic → Prop) (P : α → Prop) (o : Outcome α) : Prop where
  found : ∀ d ∈ o.found, D d
  made : ∀ a ds rest, o = .done a ds rest → P a

namespace Has

theorem done {a : α} {ds : Diagnostics} {rest : List Token} (hds : ∀ d ∈ ds, D d) (ha : P a) :
    (done a ds rest).Has D P := by
  refine ⟨hds, fun b es us h => ?_⟩
  cases h
  exact ha

theorem stuck {fault : Fault} {ds : Diagnostics} {rest : List Token} (hds : ∀ d ∈ ds, D d) :
    (stuck fault ds rest : Outcome α).Has D P := ⟨hds, nofun⟩

theorem after {o : Outcome α} (h : o.Has D P) {before : Diagnostics} (hb : ∀ d ∈ before, D d) :
    (o.after before).Has D P := by
  have hfound := List.forall_mem_append.mpr ⟨hb, h.found⟩
  cases o with
  | done a ds rest => exact .done hfound (h.made a ds rest rfl)
  | stuck fault ds rest => exact .stuck hfound

end Has

end Outcome

/-! ### Readers -/

/-- Something that is true of all ends of a list of tokens if it is true of the list. -/
structure Hereditary where
  Holds : List Token → Prop
  of_suffix : ∀ {ts us : List Token}, us <:+ ts → Holds ts → Holds us

namespace Hereditary

/-- The ends of `words`. -/
def endsOf (words : List Token) : Hereditary := ⟨fun ts => ts <:+ words, List.IsSuffix.trans⟩

/-- The lists of tokens with the property `p`. -/
def all (p : Token → Prop) : Hereditary :=
  ⟨fun ts => ∀ t ∈ ts, p t, fun hs h t ht => h t (hs.subset ht)⟩

end Hereditary

namespace Reader

/-- Of tokens of which `H` holds, whatever the reader finds on the way has the property `D`, and if
it makes something this has the property `P`. -/
def Yields (H : Hereditary) (D : Diagnostic → Prop) (r : Reader α) (P : α → Prop) : Prop :=
  ∀ ts, H.Holds ts → (r.run ts).Has D P

namespace Yields

variable {H : Hereditary} {r : Reader α} {f : α → Reader β}

theorem mono (h : Yields H D r P) (hP : ∀ a, P a → P' a) : Yields H D r P' :=
  fun ts hts => ⟨(h ts hts).found, fun a ds rest hr => hP a ((h ts hts).made a ds rest hr)⟩

theorem trivial (h : Yields H D r P) : Yields H D r fun _ => True :=
  h.mono fun _ _ => True.intro

theorem pure {a : α} (h : P a) : Yields H D (pure a) P := fun _ _ => .done (List.forall_mem_nil D) h

theorem bind (h : Yields H D r P) (hf : ∀ a, P a → Yields H D (f a) Q) :
    Yields H D (r >>= f) Q := by
  intro ts hts
  have hr := h ts hts
  have hs := r.rest_run_suffix ts
  cases hrun : r.run ts with
  | stuck fault es us =>
    rw [run_bind_of_stuck hrun]
    rw [hrun] at hr
    exact .stuck hr.found
  | done a es us =>
    rw [run_bind_of_done hrun]
    rw [hrun] at hr hs
    exact (hf a (hr.made a es us rfl) us (H.of_suffix hs hts)).after hr.found

theorem map {g : α → β} (h : Yields H D r P) (hg : ∀ a, P a → Q (g a)) :
    Yields H D (g <$> r) Q := by
  rw [map_eq_pure_bind]
  exact h.bind fun a ha => pure (hg a ha)

/-! ### Single tokens -/

theorem fail {fault : Fault} : Yields H D (fail fault) P :=
  fun _ _ => .stuck (List.forall_mem_nil D)

theorem miss {what : Expectation} : Yields H D (miss what) P :=
  fun _ _ => .stuck (List.forall_mem_nil D)

theorem note {d : Diagnostic} (h : D d) : Yields H D (note d) fun _ => True :=
  fun _ _ => .done (List.forall_mem_singleton.mpr h) True.intro

theorem look : Yields H D look fun _ => True := fun _ _ => .done (List.forall_mem_nil D) True.intro

theorem skip : Yields H D skip fun _ => True := fun _ _ => .done (List.forall_mem_nil D) True.intro

theorem take {what : Expectation} {g : Token → Option α}
    (h : ∀ t ts, H.Holds (t :: ts) → ∀ a, g t = some a → P a) : Yields H D (take what g) P := by
  intro ts hts
  rw [run_take]
  cases ts with
  | nil => exact .stuck (List.forall_mem_nil D)
  | cons t ts =>
    rw [List.head?_cons, Option.bind_some]
    cases hg : g t with
    | none => exact .stuck (List.forall_mem_nil D)
    | some a => exact .done (List.forall_mem_nil D) (h t ts hts a hg)

theorem expect (k : TokenKind) : Yields H D (expect k) fun _ => True :=
  take fun _ _ _ _ _ => True.intro

theorem description : Yields H D description fun _ => True :=
  fun _ _ => .done (List.forall_mem_nil D) True.intro

theorem accept (k : TokenKind) : Yields H D (Reader.accept k) fun _ => True := by
  intro ts hts
  rw [run_accept]
  split <;> exact .done (List.forall_mem_nil D) True.intro

theorem acceptBind {k : TokenKind} {g : Bool → Reader β} (ht : Yields H D (g true) Q)
    (hf : Yields H D (g false) Q) : Yields H D (Reader.accept k >>= g) Q := by
  refine (accept k).bind fun b _ => ?_
  cases b with
  | true => exact ht
  | false => exact hf

/-! ### Repetition and nesting -/

theorem below {n : Nat} {what : Expectation}
    (h : ∀ ts, H.Holds ts → ts.length < n → (r.run ts).Has D P) :
    Yields H D (below n what r) P := by
  intro ts hts
  by_cases hlt : ts.length < n
  · rw [run_below hlt]
    exact h ts hts hlt
  · rw [run_below_of_not hlt]
    exact .stuck (List.forall_mem_nil D)

/-- A reader that calls itself yields what its body does if the calls do. -/
theorem recursive {what : Expectation} {body : (σ → Reader α) → σ → Reader α} {I : σ → Prop}
    (h : ∀ again, (∀ s, I s → Yields H D (again s) P) →
      ∀ s, I s → Yields H D (body again s) P)
    {s : σ} (hs : I s) : Yields H D (recursive what body s) P := by
  intro ts
  induction hn : ts.length using Nat.strongRecOn generalizing ts s with
  | _ n ih =>
    intro hts
    rw [run_recursive]
    refine h _ (fun s' hs' => below fun us hus hlt => ?_) s hs ts hts
    exact ih us.length (hn ▸ hlt) hs' us rfl hus

theorem untilMark {close : Mark} {step : σ → Reader σ} {I : σ → Prop}
    (h : ∀ s, I s → Yields H D (step s) I) {s : σ} (hs : I s) :
    Yields H D (untilMark close step s) I := by
  refine recursive (I := I) (fun again hagain s hs => ?_) hs
  exact acceptBind (pure hs) ((h s hs).bind hagain)

theorem whileMark {m : Mark} {step : σ → Reader σ} {I : σ → Prop}
    (h : ∀ s, I s → Yields H D (step s) I) {s : σ} (hs : I s) :
    Yields H D (whileMark m step s) I := by
  refine recursive (I := I) (fun again hagain s hs => ?_) hs
  exact acceptBind ((h s hs).bind hagain) (pure hs)

/-- Items that are added to a list one by one. -/
theorem append {items : List α} (hitems : ∀ a ∈ items, P a) {a : α} (ha : P a) :
    ∀ b ∈ items ++ [a], P b :=
  List.forall_mem_append.mpr ⟨hitems, List.forall_mem_singleton.mpr ha⟩

/-- Items with a mark between them; there is one at least. -/
theorem separated {m : Mark} {item : Reader α} (h : Yields H D item P) :
    Yields H D (separated m item) fun items => items ≠ [] ∧ ∀ a ∈ items, P a := by
  refine h.bind fun a ha => .whileMark (fun items hitems => ?_)
    ⟨nofun, List.forall_mem_singleton.mpr ha⟩
  exact h.bind fun b hb => .pure ⟨by simp, append hitems.2 hb⟩

end Yields

end Reader

end SchemaLang
