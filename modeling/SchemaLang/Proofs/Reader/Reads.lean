import SchemaLang.Proofs.Pieces
import SchemaLang.Proofs.Reader.Recognize

/-! What a reader makes of given words. A reader reads some words if it takes just them, finds
nothing to note and gives a value as it should be, unless a token comes behind them by which
they could go on. Each way of putting readers together has a rule for it; loops carry an
invariant that speaks of the items they have read so far. -/

namespace SchemaLang.Reader

variable {α β σ : Type} {P : α → Prop} {Q : β → Prop} {u v : List (TokenKind × String)}
  {bad bad' : List TokenKind}

/-! ### What comes first -/

/-- Whatever tokens are spelled `u`, if none of the kinds `bad'` comes behind them, then none of
the kinds `bad` comes first. -/
def Leads (bad : List TokenKind) : List (TokenKind × String) → List TokenKind → Prop
  | [], bad' => bad ⊆ bad'
  | s :: _, _ => s.1 ∉ bad

@[simp] theorem leads_nil : Leads bad [] bad' ↔ bad ⊆ bad' := Iff.rfl

@[simp] theorem leads_cons {s : TokenKind × String} : Leads bad (s :: u) bad' ↔ s.1 ∉ bad :=
  Iff.rfl

theorem leads_of_nil : Leads [] u bad' := by
  cases u <;> simp

/-- Words that none of the kinds may come behind, and that none of them begins. -/
theorem Leads.exists_cons {k : TokenKind} (h : Leads (k :: bad) u []) :
    ∃ s v, u = s :: v ∧ s.1 ≠ k ∧ s.1 ∉ bad := by
  cases u with
  | nil => exact absurd h (by simp)
  | cons s u => exact ⟨s, u, rfl, by simpa using h⟩

/-- Items that are never empty, before a token. -/
theorem leads_flatMap {spell : β → List (TokenKind × String)} {k : TokenKind} {xs : List β}
    (h : ∀ x ∈ xs, Leads (k :: bad) (spell x) []) (hk : k ∉ bad) (w : String) :
    Leads bad (xs.flatMap spell ++ [(k, w)]) bad' := by
  cases xs with
  | nil => exact hk
  | cons x xs =>
    obtain ⟨s, u, hs, -, hsb⟩ := (h x List.mem_cons_self).exists_cons
    rw [List.flatMap_cons, hs]
    exact hsb

theorem Leads.clear {ts rest : List Token} (h : Leads bad (ts.map Token.spelling) bad')
    (hrest : Clear bad' rest) : Clear bad (ts ++ rest) := by
  cases ts with
  | nil => exact hrest.mono h
  | cons t ts => exact clear_cons.mpr h

/-! ### Reading in sequence -/

/-- From tokens spelled `u` with none of the kinds `bad` behind them, the reader takes just these
tokens and gives a value that `P` holds of. -/
def Reads (r : Reader α) (u : List (TokenKind × String)) (P : α → Prop)
    (bad : List TokenKind) : Prop :=
  ∀ ts rest, ts.map Token.spelling = u → Clear bad rest →
    ∃ a, r.run (ts ++ rest) = .done a [] rest ∧ P a

namespace Reads

theorem imp {P' : α → Prop} {r : Reader α} (h : Reads r u P bad) (hP : ∀ a, P a → P' a) :
    Reads r u P' bad := by
  intro ts rest hts hrest
  obtain ⟨a, hr, ha⟩ := h ts rest hts hrest
  exact ⟨a, hr, hP a ha⟩

/-- More kinds that may not come behind. -/
theorem widen {r : Reader α} (h : Reads r u P bad) (hb : bad ⊆ bad') : Reads r u P bad' :=
  fun ts rest hts hrest => h ts rest hts (hrest.mono hb)

theorem pure {a : α} (h : P a) : Reads (pure a) [] P bad := by
  intro ts rest hts _
  obtain rfl := List.map_eq_nil_iff.mp hts
  exact ⟨a, run_pure a rest, h⟩

theorem bind {r : Reader α} {f : α → Reader β} (hr : Reads r u P bad)
    (hf : ∀ a, P a → Reads (f a) v Q bad') (h : Leads bad v bad') :
    Reads (r >>= f) (u ++ v) Q bad' := by
  intro ts rest hts hrest
  obtain ⟨us, vs, rfl, hus, rfl⟩ := List.map_eq_append_iff.mp hts
  rw [List.append_assoc]
  obtain ⟨a, ha, hP⟩ := hr us (vs ++ rest) hus (h.clear hrest)
  obtain ⟨b, hb, hQ⟩ := hf a hP vs rest rfl hrest
  refine ⟨b, ?_, hQ⟩
  rw [run_bind_of_done ha, Outcome.after_nil, hb]

/-- A reader that nothing can mislead. -/
theorem seq {r : Reader α} {f : α → Reader β} (hr : Reads r u P [])
    (hf : ∀ a, P a → Reads (f a) v Q bad) : Reads (r >>= f) (u ++ v) Q bad :=
  hr.bind hf leads_of_nil

/-- A reader with one thing left to do that takes nothing. -/
theorem last {r : Reader α} {f : α → Reader β} (hr : Reads r u P bad)
    (hf : ∀ a, P a → Reads (f a) [] Q bad) : Reads (r >>= f) u Q bad := by
  have h := hr.bind hf (List.Subset.refl bad)
  rwa [List.append_nil] at h

theorem map {r : Reader α} {f : α → β} (hr : Reads r u P bad) (hf : ∀ a, P a → Q (f a)) :
    Reads (f <$> r) u Q bad := by
  rw [map_eq_pure_bind]
  exact hr.last fun a ha => .pure (hf a ha)

/-! ### Single tokens -/

theorem take {what : Expectation} {f : Token → Option α} {s : TokenKind × String}
    (h : ∀ t : Token, t.spelling = s → ∃ a, f t = some a ∧ P a) :
    Reads (take what f) [s] P bad := by
  intro ts rest hts _
  obtain ⟨t, ts, rfl, ht, hnil⟩ := List.map_eq_cons_iff.mp hts
  obtain rfl := List.map_eq_nil_iff.mp hnil
  obtain ⟨a, ha, hP⟩ := h t ht
  refine ⟨a, ?_, hP⟩
  simp [run_take, ha]

theorem expect {k : TokenKind} {w : String} :
    Reads (expect k) [(k, w)] (fun _ => True) bad :=
  .take fun t ht => ⟨(), by simp [(Prod.mk.inj ht).1], True.intro⟩

theorem accept_true {k : TokenKind} {w : String} {f : Bool → Reader α}
    (h : Reads (f true) u P bad) : Reads (accept k >>= f) ((k, w) :: u) P bad := by
  intro ts rest hts hrest
  obtain ⟨t, ts, rfl, ht, hu⟩ := List.map_eq_cons_iff.mp hts
  obtain ⟨a, ha, hP⟩ := h ts rest hu hrest
  refine ⟨a, ?_, hP⟩
  rw [run_accept_bind, List.cons_append, if_pos (next_cons.mpr (Prod.mk.inj ht).1),
    List.tail_cons, ha]

theorem accept_false {k : TokenKind} {f : Bool → Reader α} (hk : Leads [k] u bad)
    (h : Reads (f false) u P bad) : Reads (accept k >>= f) u P bad := by
  intro ts rest hts hrest
  obtain ⟨a, ha, hP⟩ := h ts rest hts hrest
  refine ⟨a, ?_, hP⟩
  have hclear : Clear [k] (ts ++ rest) := Leads.clear (hts ▸ hk) hrest
  rw [run_accept_bind, if_neg (hclear.not_next (List.mem_singleton_self k)), ha]

/-! ### Loops -/

variable {spell : β → List (TokenKind × String)} {I : List β → σ → Prop}

/-- Items until a closing mark. The invariant is on the items read so far and the state. -/
theorem untilMark {close : Mark} {w : String} {step : σ → Reader σ} {xs : List β} {s : σ}
    (hstep : ∀ front x, front ++ [x] <+: xs → ∀ s, I front s →
      Reads (step s) (spell x) (I (front ++ [x])) bad)
    (hspell : ∀ x ∈ xs, Leads (.mark close :: bad) (spell x) []) (hc : .mark close ∉ bad)
    (h : I [] s) :
    Reads (untilMark close step s) (xs.flatMap spell ++ [(.mark close, w)]) (I xs) bad' := by
  -- The loop stands between the items in front, which the invariant knows, and those to come.
  suffices hloop : ∀ back front s, front ++ back = xs → I front s →
      Reads (Reader.untilMark close step s) (back.flatMap spell ++ [(.mark close, w)]) (I xs)
        bad' from
    hloop xs [] s (List.nil_append xs) h
  intro back
  induction back with
  | nil =>
    intro front s hxs hI ts rest hts _
    rw [List.append_nil] at hxs
    obtain ⟨t, ts, rfl, ht, hnil⟩ := List.map_eq_cons_iff.mp hts
    obtain rfl := List.map_eq_nil_iff.mp hnil
    refine ⟨s, ?_, hxs ▸ hI⟩
    rw [run_untilMark, List.singleton_append, if_pos (next_cons.mpr (Prod.mk.inj ht).1),
      List.tail_cons]
  | cons x back ih =>
    intro front s hxs hI ts rest hts hrest
    have hxs' : front ++ [x] ++ back = xs := by simpa using hxs
    have hx := hspell x (hxs ▸ by simp)
    rw [List.flatMap_cons, List.append_assoc] at hts
    obtain ⟨us, vs, rfl, hus, hvs⟩ := List.map_eq_append_iff.mp hts
    rw [List.append_assoc]
    have hback : Leads bad (back.flatMap spell ++ [(.mark close, w)]) bad' :=
      leads_flatMap (fun y hy => hspell y (hxs ▸ by simp [hy])) hc w
    obtain ⟨s', hs', hI'⟩ := hstep front x ⟨back, hxs'⟩ s hI us (vs ++ rest) hus
      ((hvs ▸ hback).clear hrest)
    obtain ⟨s'', hs'', hI''⟩ := ih (front ++ [x]) s' hxs' hI' vs rest hvs hrest
    -- An item is never empty, so that the loop has moved on behind it.
    obtain ⟨_, _, hu, hne, -⟩ := (hus ▸ hx : Leads _ (us.map Token.spelling) []).exists_cons
    obtain ⟨t, us, rfl, rfl, -⟩ := List.map_eq_cons_iff.mp hu
    have hlt : (vs ++ rest).length < (t :: us ++ (vs ++ rest)).length := by
      simp only [List.length_append, List.length_cons]
      omega
    have hnext : ¬ Next (.mark close) (t :: us ++ (vs ++ rest)) := fun hn => hne (next_cons.mp hn)
    refine ⟨s'', ?_, hI''⟩
    rw [run_untilMark, if_neg hnext, run_bind_of_done hs', Outcome.after_nil, run_below hlt, hs'']

/-- Items with a mark before each. -/
theorem whileMark {m : Mark} {step : σ → Reader σ} {xs : List β} {s : σ}
    (hstep : ∀ front x, front ++ [x] <+: xs → ∀ s, I front s →
      Reads (step s) (spell x) (I (front ++ [x])) bad)
    (hm : .mark m ∉ bad) (h : I [] s) :
    Reads (whileMark m step s) (xs.flatMap fun x => (.mark m, m.text) :: spell x) (I xs)
      (.mark m :: bad) := by
  suffices hloop : ∀ back front s, front ++ back = xs → I front s →
      Reads (Reader.whileMark m step s) (back.flatMap fun x => (.mark m, m.text) :: spell x) (I xs)
        (.mark m :: bad) from
    hloop xs [] s (List.nil_append xs) h
  intro back
  induction back with
  | nil =>
    intro front s hxs hI ts rest hts hrest
    rw [List.append_nil] at hxs
    obtain rfl := List.map_eq_nil_iff.mp hts
    refine ⟨s, ?_, hxs ▸ hI⟩
    rw [run_whileMark, List.nil_append, if_neg (hrest.not_next List.mem_cons_self)]
  | cons x back ih =>
    intro front s hxs hI ts rest hts hrest
    have hxs' : front ++ [x] ++ back = xs := by simpa using hxs
    rw [List.flatMap_cons, List.cons_append] at hts
    obtain ⟨t, ts, rfl, ht, hts⟩ := List.map_eq_cons_iff.mp hts
    obtain ⟨us, vs, rfl, hus, hvs⟩ := List.map_eq_append_iff.mp hts
    have hback : Leads bad (back.flatMap fun x => (.mark m, m.text) :: spell x)
        (.mark m :: bad) := by
      cases back with
      | nil => exact List.subset_cons_self _ _
      | cons y back => exact hm
    obtain ⟨s', hs', hI'⟩ := hstep front x ⟨back, hxs'⟩ s hI us (vs ++ rest) hus
      ((hvs ▸ hback).clear hrest)
    obtain ⟨s'', hs'', hI''⟩ := ih (front ++ [x]) s' hxs' hI' vs rest hvs hrest
    refine ⟨s'', ?_, hI''⟩
    rw [run_whileMark, List.cons_append, if_pos (next_cons.mpr (Prod.mk.inj ht).1),
      List.tail_cons, List.append_assoc, run_bind_of_done hs', Outcome.after_nil, hs'']

/-- A loop between marks, if the opening one comes. Nothing is printed if there are no items. -/
theorem group {opening close : Mark} {step : σ → Reader σ} {xs : List β} {s : σ}
    (hstep : ∀ front x, front ++ [x] <+: xs → ∀ s, I front s →
      Reads (step s) (spell x) (I (front ++ [x])) bad)
    (hspell : ∀ x ∈ xs, Leads (.mark close :: bad) (spell x) []) (hc : .mark close ∉ bad)
    (h : I [] s) :
    Reads (do
      if ← accept (.mark opening) then Reader.untilMark close step s
      else return s)
      (if xs.isEmpty then []
        else (.mark opening, opening.text) :: (xs.flatMap spell ++ [(.mark close, close.text)]))
      (I xs) [.mark opening] := by
  cases xs with
  | nil => exact .accept_false (List.Subset.refl _) (.pure h)
  | cons x xs => exact .accept_true (.untilMark hstep hspell hc h)

variable {γ : Type} {g : α → γ} {h : β → γ}

/-- One more item behind others. -/
theorem append {r : Reader α} {front : List β} {x : β} {as : List α}
    (hr : Reads r u (fun a => g a = h x) bad) (has : as.map g = front.map h) :
    Reads (do return as ++ [← r]) u (fun bs => bs.map g = (front ++ [x]).map h) bad :=
  hr.last fun a ha => .pure (by simp [has, ha])

/-- Items with a mark between each two. -/
theorem separated {m : Mark} {item : Reader α} {x : β} {xs : List β}
    (hitem : ∀ y ∈ x :: xs, Reads item (spell y) (fun a => g a = h y) bad) (hm : .mark m ∉ bad) :
    Reads (separated m item) (spell x ++ xs.flatMap fun y => (.mark m, m.text) :: spell y)
      (fun as => as.map g = (x :: xs).map h) (.mark m :: bad) := by
  refine (hitem x List.mem_cons_self).bind (fun a ha => ?_) ?_
  · refine whileMark (I := fun front (as : List α) => as.map g = (x :: front).map h)
      (fun front y hy s hs => ?_) hm (by simp [ha])
    exact append (hitem y (List.mem_cons_of_mem x (hy.subset (by simp)))) hs
  · cases xs with
    | nil => exact List.subset_cons_self _ _
    | cons y ys => exact hm

end Reads

end SchemaLang.Reader
