import SchemaLang.Proofs.Reader.Recognize
import SchemaLang.Proofs.Written

/-! What readers make of the words of a language. A reader that takes each word, unless a token
comes behind it by which it could go on, makes something of it that has a property. Each way of
putting readers together has a rule for it; loops carry an invariant that speaks of the items they
have read so far. -/

namespace SchemaLang

namespace Reader

open Grammar
open scoped Computability

variable {α β γ σ : Type} {L M : Language Token} {P : α → Prop} {Q : β → Prop}
  {bad bad' : List TokenKind}

/-- Of every word of `L`, unless one of the kinds `bad` comes behind it, the reader makes something
with the property `P`. -/
def Makes (r : Reader α) (L : Language Token) (P : α → Prop) (bad : List TokenKind) : Prop :=
  ∀ used ∈ L, ∀ rest, Clear bad rest → ∃ a ds, r.run (used ++ rest) = .done a ds rest ∧ P a

theorem Recognizes.makes {r : Reader α} (h : ∀ n, Recognizes n r L bad) :
    Makes r L (fun _ => True) bad := by
  intro used hu rest hc
  obtain ⟨a, ds, hr⟩ := (h (used.length + 1)).complete hu (Nat.lt_succ_self _) hc
  exact ⟨a, ds, hr, trivial⟩

namespace Makes

theorem imp {P' : α → Prop} {r : Reader α} (h : Makes r L P bad) (hP : ∀ a, P a → P' a) :
    Makes r L P' bad := by
  intro used hu rest hc
  obtain ⟨a, ds, hr, ha⟩ := h used hu rest hc
  exact ⟨a, ds, hr, hP a ha⟩

/-- More kinds that may not come behind. -/
theorem widen {r : Reader α} (h : Makes r L P bad) (hb : bad ⊆ bad') : Makes r L P bad' :=
  fun used hu rest hc => h used hu rest (hc.mono hb)

theorem pure {a : α} (h : P a) : Makes (pure a) 1 P bad := by
  rintro used rfl rest -
  exact ⟨a, [], run_pure a rest, h⟩

theorem bind {r : Reader α} {f : α → Reader β} (hr : Makes r L P bad)
    (hf : ∀ a, P a → Makes (f a) M Q bad') (hM : Avoids M bad) (hb : [] ∈ M → bad ⊆ bad') :
    Makes (r >>= f) (L * M) Q bad' := by
  rintro _ ⟨u, hu, v, hv, rfl⟩ rest hc
  have hnext : Clear bad (v ++ rest) := Clear.append hv hM fun h => hc.mono (hb (h ▸ hv))
  obtain ⟨a, ds, ha, hP⟩ := hr u hu (v ++ rest) hnext
  obtain ⟨b, es, hb, hQ⟩ := hf a hP v hv rest hc
  refine ⟨b, ds ++ es, ?_, hQ⟩
  rw [List.append_assoc, run_bind_of_done ha, hb, Outcome.after_done]

/-- Nothing that comes behind `r` matters to it. -/
theorem seq {r : Reader α} {f : α → Reader β} (hr : Makes r L P [])
    (hf : ∀ a, P a → Makes (f a) M Q bad) : Makes (r >>= f) (L * M) Q bad :=
  hr.bind hf (by simp [Avoids]) (by simp)

/-- A reader with one thing left to do that takes nothing. -/
theorem last {r : Reader α} {f : α → Reader β} (hr : Makes r L P bad)
    (hf : ∀ a, P a → Makes (f a) 1 Q bad) : Makes (r >>= f) L Q bad := by
  rw [← mul_one L]
  exact hr.bind hf avoids_one_word fun _ => List.Subset.refl _

theorem map {r : Reader α} {f : α → β} (hr : Makes r L P bad) (hf : ∀ a, P a → Q (f a)) :
    Makes (f <$> r) L Q bad := by
  rw [map_eq_pure_bind]
  exact hr.last fun a ha => .pure (hf a ha)

theorem add {r : Reader α} (hL : Makes r L P bad) (hM : Makes r M P bad) :
    Makes r (L + M) P bad :=
  fun used hu => hu.elim (hL used) (hM used)

section Accept

variable {k : TokenKind} {f : Bool → Reader α}

/-- A token of kind `k` comes next. -/
theorem accept_next (ht : Makes (f true) L P bad) : Makes (accept k >>= f) (kind k * L) P bad := by
  rintro _ ⟨_, ⟨t, hk, rfl⟩, u, hu, rfl⟩ rest hc
  obtain ⟨a, ds, ha, hP⟩ := ht u hu rest hc
  exact ⟨a, ds, by simpa [run_accept_bind, hk] using ha, hP⟩

/-- No token of kind `k` comes next. -/
theorem accept_other (hf : Makes (f false) M P bad) (hM : Avoids M [k]) (hb : [] ∈ M → k ∈ bad) :
    Makes (accept k >>= f) M P bad := by
  intro used hu rest hc
  have hk : ¬ Next k (used ++ rest) :=
    (Clear.append hu hM fun h => hc.mono (by simpa using hb (h ▸ hu))).not_next (by simp)
  obtain ⟨a, ds, ha, hP⟩ := hf used hu rest hc
  exact ⟨a, ds, by rw [run_accept_bind, if_neg hk, ha], hP⟩

/-- A part that a token of kind `k` announces, and what comes behind it. -/
theorem accept_optional (ht : Makes (f true) (L * M) P bad) (hf : Makes (f false) M P bad)
    (hM : Avoids M [k]) (hb : [] ∈ M → k ∈ bad) :
    Makes (accept k >>= f) (optional (kind k * L) * M) P bad := by
  rw [Grammar.optional, add_mul, one_mul, mul_assoc]
  exact (accept_next ht).add (accept_other hf hM hb)

end Accept

/-! ### Loops -/

variable {spell : β → Language Token} {I : List β → σ → Prop}

/-- Items until a closing mark. The invariant is on the items read so far and the state. -/
theorem untilMark {close : Mark} {step : σ → Reader σ}
    (hstep : ∀ front x s, I front s → Makes (step s) (spell x) (I (front ++ [x])) bad)
    (hspell : ∀ x, Avoids (spell x) (.mark close :: bad)) (hnil : ∀ x, [] ∉ spell x)
    (hc : .mark close ∉ bad) {s : σ} (h : I [] s) (xs : List β) :
    Makes (untilMark close step s) ((xs.map spell).prod * mark close) (I xs) [] := by
  -- The loop stands between the items in front, which the invariant knows, and those to come.
  suffices hloop : ∀ back front s, I front s →
      Makes (Reader.untilMark close step s) ((back.map spell).prod * mark close)
        (I (front ++ back)) [] from
    hloop xs [] s h
  intro back
  induction back with
  | nil =>
    rintro front s hI _ ⟨_, rfl, _, ⟨t, ht, rfl⟩, rfl⟩ rest -
    exact ⟨s, [], by simp [run_untilMark, ht], by rwa [List.append_nil]⟩
  | cons x back ih =>
    rintro front s hI _ ⟨_, ⟨u, hu, v, hv, rfl⟩, c, hcl, rfl⟩ rest -
    have hback : v ++ c ∈ (back.map spell).prod * mark close := ⟨v, hv, c, hcl, rfl⟩
    have havoids : Avoids ((back.map spell).prod * mark close) bad := by
      refine .mul ?_ fun _ => .kind hc
      clear ih hv hback
      induction back with
      | nil => exact avoids_one_word
      | cons y back ih => exact ((hspell y).mono (by simp)).mul fun _ => ih
    have hne : u ≠ [] := fun hnone => hnil x (hnone ▸ hu)
    have hnext : ¬ Next (.mark close) (u ++ (v ++ c ++ rest)) :=
      (Clear.append hu (hspell x) fun hnone => absurd hnone hne).not_next List.mem_cons_self
    have hclear : Clear bad (v ++ c ++ rest) := by
      refine Clear.append hback havoids fun hnone => ?_
      obtain ⟨t, -, rfl⟩ := hcl
      simp at hnone
    obtain ⟨s', ds, hs', hI'⟩ := hstep front x s hI u hu _ hclear
    obtain ⟨a, es, ha, hIa⟩ := ih (front ++ [x]) s' hI' _ hback rest (by simp)
    have hlt : (v ++ c ++ rest).length < (u ++ (v ++ c ++ rest)).length := by
      have hpos := List.length_pos_iff.mpr hne
      have hlength : (u ++ (v ++ c ++ rest)).length = u.length + (v ++ c ++ rest).length :=
        List.length_append
      omega
    refine ⟨a, ds ++ es, ?_, by rwa [List.append_assoc] at hIa⟩
    have hsplit : u ++ v ++ c ++ rest = u ++ (v ++ c ++ rest) := by simp
    rw [hsplit, run_untilMark, if_neg hnext, run_bind_of_done hs', run_below hlt, ha,
      Outcome.after_done]

/-- Items with a mark before each. -/
theorem whileMark {m : Mark} {step : σ → Reader σ}
    (hstep : ∀ front x s, I front s → Makes (step s) (spell x) (I (front ++ [x])) bad)
    (hm : .mark m ∉ bad) {front : List β} {s : σ} (h : I front s) (xs : List β) :
    Makes (whileMark m step s) (xs.map fun x => mark m * spell x).prod (I (front ++ xs))
      (.mark m :: bad) := by
  induction xs generalizing front s with
  | nil =>
    rintro _ rfl rest hc
    refine ⟨s, [], ?_, by rwa [List.append_nil]⟩
    rw [run_whileMark, List.nil_append, if_neg (hc.not_next List.mem_cons_self)]
  | cons x xs ih =>
    rintro _ ⟨_, ⟨_, ⟨t, ht, rfl⟩, u, hu, rfl⟩, v, hv, rfl⟩ rest hc
    have havoids : Avoids (xs.map fun x => mark m * spell x).prod bad := by
      cases xs with
      | nil => exact avoids_one_word
      | cons y xs => exact (Avoids.kind_mul hm).mul_left (nil_notMem_mul_left nil_notMem_one)
    have hclear : Clear bad (v ++ rest) := Clear.append hv havoids fun _ => hc.mono (by simp)
    obtain ⟨s', ds, hs', hI'⟩ := hstep front x s h u hu _ hclear
    obtain ⟨a, es, ha, hIa⟩ := ih hI' v hv rest hc
    refine ⟨a, ds ++ es, ?_, by rwa [List.append_assoc] at hIa⟩
    have hsplit : [t] ++ u ++ v ++ rest = t :: (u ++ (v ++ rest)) := by simp
    rw [hsplit, run_whileMark, if_pos (next_cons.mpr ht), List.tail_cons, run_bind_of_done hs', ha,
      Outcome.after_done]

/-- A loop between marks, if the opening one comes. -/
theorem group (bad : List TokenKind) {l r : Mark} {step : σ → Reader σ}
    (hstep : ∀ front x s, I front s → Makes (step s) (spell x) (I (front ++ [x])) bad)
    (hspell : ∀ x, Avoids (spell x) (.mark r :: bad)) (hnil : ∀ x, [] ∉ spell x)
    (hr : .mark r ∉ bad) {s : σ} (h : I [] s) (xs : List β) :
    Makes (do if ← accept (.mark l) then Reader.untilMark r step s else return s)
      (betweenIfAny l r (xs.map spell)) (I xs) [.mark l] := by
  have hloop := (untilMark hstep hspell hnil hr h xs).widen (List.nil_subset [.mark l])
  cases xs with
  | nil =>
    refine .add (accept_next ?_) (accept_other (.pure h) avoids_one_word (by simp))
    exact hloop
  | cons x xs =>
    refine accept_next ?_
    exact hloop

end Makes

end Reader

end SchemaLang
