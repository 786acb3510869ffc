import SchemaLang.Proofs.Grammar
import SchemaLang.Proofs.Reader.Run

/-! When a reader takes exactly the words of a language: what it takes is a word, and it
takes every word unless a token comes behind it by which the word could go on. Each way of
putting readers together has a rule that puts their languages together, with the side
condition that one token is enough to tell what comes next. -/

namespace SchemaLang.Reader

open Grammar
open scoped Computability

variable {α β σ : Type} {L M : Language Token} {bad bad' : List TokenKind} {n : ℕ}

/-! ### The next token -/

/-- None of the kinds comes next. -/
def Clear (bad : List TokenKind) (ts : List Token) : Prop := ∀ t ∈ ts.head?, t.kind ∉ bad

/-- No word begins with one of the kinds. -/
def Avoids (L : Language Token) (bad : List TokenKind) : Prop :=
  ∀ t ts, t :: ts ∈ L → t.kind ∉ bad

@[simp] theorem clear_nil_left (ts : List Token) : Clear [] ts := by simp [Clear]

@[simp] theorem clear_cons {t : Token} {ts : List Token} : Clear bad (t :: ts) ↔ t.kind ∉ bad := by
  simp [Clear]

theorem Clear.mono {ts : List Token} (h : Clear bad' ts) (hb : bad ⊆ bad') : Clear bad ts :=
  fun t ht hk => h t ht (hb hk)

theorem Clear.not_next {k : TokenKind} {ts : List Token} (h : Clear bad ts) (hk : k ∈ bad) :
    ¬ Next k ts := by
  rintro ⟨t, ht, rfl⟩
  exact h t ht hk

/-- Behind a word of a language that avoids the kinds, nothing changes. -/
theorem Clear.append {u ts : List Token} (hu : u ∈ L) (hL : Avoids L bad)
    (h : u = [] → Clear bad ts) : Clear bad (u ++ ts) := by
  cases u with
  | nil => exact h rfl
  | cons t us =>
    rw [List.cons_append, clear_cons]
    exact hL t us hu

namespace Avoids

theorem mono (h : Avoids L bad') (hb : bad ⊆ bad') : Avoids L bad :=
  fun t ts ht hk => h t ts ht (hb hk)

theorem one {p : Token → Prop} (h : ∀ t, p t → t.kind ∉ bad) : Avoids (one p) bad := by
  rintro t ts ⟨t', hp, heq⟩
  obtain ⟨rfl, -⟩ := List.cons.inj heq
  exact h t hp

theorem kind {k : TokenKind} (h : k ∉ bad) : Avoids (kind k) bad := one fun _ ht => ht ▸ h

theorem add (hL : Avoids L bad) (hM : Avoids M bad) : Avoids (L + M) bad := by
  rintro t ts (h | h)
  · exact hL t ts h
  · exact hM t ts h

theorem optional (hL : Avoids L bad) : Avoids (optional L) bad :=
  hL.add fun _ _ h => absurd h (by simp)

/-- The first factor decides, unless it has the empty word. -/
theorem mul (hL : Avoids L bad) (hM : [] ∈ L → Avoids M bad) : Avoids (L * M) bad := by
  rintro t ts ⟨u, hu, v, hv, heq⟩
  cases u with
  | nil => exact hM hu t ts (by simpa using heq ▸ hv)
  | cons s us =>
    obtain ⟨rfl, -⟩ := List.cons.inj heq
    exact hL s us hu

theorem mul_left (hL : Avoids L bad) (h : [] ∉ L) : Avoids (L * M) bad :=
  hL.mul fun h' => absurd h' h

theorem kind_mul {k : TokenKind} (h : k ∉ bad) : Avoids (Grammar.kind k * M) bad :=
  (Avoids.kind h).mul_left fun ⟨_, _, h⟩ => nomatch h

theorem star (hL : Avoids L bad) : Avoids L∗ bad := by
  intro t ts h
  obtain ⟨ws, heq, hw⟩ := Language.mem_kstar.mp h
  induction ws with
  | nil => cases heq
  | cons w ws ih =>
    cases w with
    | nil => exact ih (by simpa using heq) fun y hy => hw y (List.mem_cons_of_mem _ hy)
    | cons s us =>
      obtain ⟨rfl, -⟩ := List.cons.inj heq
      exact hL _ us (hw _ List.mem_cons_self)

end Avoids

theorem nil_notMem_one {p : Token → Prop} : [] ∉ one p := by
  rintro ⟨t, -, h⟩
  cases h

/-- What is said of a first token holds of the empty language trivially. -/
theorem avoids_one_word : Avoids 1 bad := fun _ _ h => absurd h (by simp)

theorem nil_notMem_mul_left (hL : [] ∉ L) : [] ∉ L * M := by
  rintro ⟨u, hu, v, -, heq⟩
  obtain ⟨rfl, -⟩ := List.append_eq_nil_iff.mp heq
  exact hL hu

theorem nil_notMem_mul_right (hM : [] ∉ M) : [] ∉ L * M := by
  rintro ⟨u, -, v, hv, heq⟩
  obtain ⟨-, rfl⟩ := List.append_eq_nil_iff.mp heq
  exact hM hv

/-! ### Taking the words of a language -/

/-- On fewer than `n` tokens the reader `r` takes the words of `L` and nothing else, and it takes
each of them unless one of the kinds `bad` comes behind. What it notes is no fault of form. The
bound is for readers that call themselves. -/
structure Recognizes (n : ℕ) (r : Reader α) (L : Language Token) (bad : List TokenKind) : Prop where
  sound : ∀ {ts a ds rest}, ts.length < n → r.run ts = .done a ds rest →
    (∃ used ∈ L, used ++ rest = ts) ∧ ∀ d ∈ ds, d.kind ≠ .form
  complete : ∀ {used rest}, used ∈ L → used.length < n → Clear bad rest →
    ∃ a ds, r.run (used ++ rest) = .done a ds rest

namespace Recognizes

theorem mono {r : Reader α} (h : Recognizes n r L bad) (hb : bad ⊆ bad') : Recognizes n r L bad' :=
  ⟨h.sound, fun hu hn hc => h.complete hu hn (hc.mono hb)⟩

theorem pure (a : α) : Recognizes n (pure a) 1 [] where
  sound := by
    intro ts b ds rest _ h
    rw [run_pure] at h
    cases h
    exact ⟨⟨[], rfl, rfl⟩, by simp⟩
  complete := by
    rintro used rest rfl - -
    exact ⟨a, [], run_pure a rest⟩

theorem note {d : Diagnostic} (hd : d.kind ≠ .form) : Recognizes n (note d) 1 [] where
  sound := by
    intro ts b ds rest _ h
    rw [run_note] at h
    cases h
    exact ⟨⟨[], rfl, rfl⟩, by simpa using hd⟩
  complete := by
    rintro used rest rfl - -
    exact ⟨(), [d], run_note d rest⟩

theorem bind {r : Reader α} {f : α → Reader β} (hr : Recognizes n r L bad)
    (hf : ∀ a, Recognizes n (f a) M bad') (hM : Avoids M bad) (hb : [] ∈ M → bad ⊆ bad') :
    Recognizes n (r >>= f) (L * M) bad' where
  sound := by
    intro ts b ds rest hn h
    cases ha : r.run ts with
    | stuck fault es us => rw [run_bind_of_stuck ha] at h; cases h
    | done a es us =>
      obtain ⟨⟨u, hu, rfl⟩, hes⟩ := hr.sound hn ha
      rw [run_bind_of_done ha, Outcome.after_eq_done_iff] at h
      obtain ⟨fs, h, rfl⟩ := h
      have hlen : us.length < n := by simp at hn; omega
      obtain ⟨⟨v, hv, rfl⟩, hfs⟩ := (hf a).sound hlen h
      refine ⟨⟨u ++ v, ⟨u, hu, v, hv, rfl⟩, List.append_assoc _ _ _⟩, fun d hd => ?_⟩
      exact (List.mem_append.mp hd).elim (hes d) (hfs d)
  complete := by
    rintro _ rest ⟨u, hu, v, hv, rfl⟩ hn hc
    simp only [List.length_append] at hn
    have hv' : Clear bad (v ++ rest) := Clear.append hv hM fun h => hc.mono (hb (h ▸ hv))
    obtain ⟨a, ds, ha⟩ := hr.complete hu (by omega) hv'
    obtain ⟨b, es, hb⟩ := (hf a).complete hv (by omega) hc
    refine ⟨b, ds ++ es, ?_⟩
    rw [List.append_assoc, run_bind_of_done ha, hb, Outcome.after_done]

/-- Nothing that comes behind `r` matters to it. -/
theorem seq {r : Reader α} {f : α → Reader β} (hr : Recognizes n r L [])
    (hf : ∀ a, Recognizes n (f a) M bad) : Recognizes n (r >>= f) (L * M) bad :=
  hr.bind hf (by simp [Avoids]) (by simp)

/-- What a reader that takes nothing adds behind another. -/
theorem bind_one {r : Reader α} {f : α → Reader β} (hr : Recognizes n r L bad)
    (hf : ∀ a, Recognizes n (f a) 1 bad) : Recognizes n (r >>= f) L bad := by
  rw [← mul_one L]
  exact hr.bind hf avoids_one_word fun _ => List.Subset.refl _

theorem take {what : Expectation} {f : Token → Option α} {p : Token → Prop}
    (hp : ∀ t, (f t).isSome ↔ p t) : Recognizes n (take what f) (one p) [] where
  sound := by
    intro ts a ds rest _ h
    rw [run_take] at h
    split at h
    next b hb =>
      cases h
      obtain ⟨t, ht, hft⟩ := Option.bind_eq_some_iff.mp hb
      cases ts with
      | nil => cases ht
      | cons s ts =>
        cases ht
        exact ⟨⟨[t], ⟨t, (hp t).mp (by simp [hft]), rfl⟩, rfl⟩, by simp⟩
    next => cases h
  complete := by
    rintro _ rest ⟨t, ht, rfl⟩ - -
    obtain ⟨a, ha⟩ := Option.isSome_iff_exists.mp ((hp t).mpr ht)
    exact ⟨a, [], by simp [run_take, ha]⟩

/-- A branch on whether a token of kind `k` comes next. The token is gone in the first branch, so
that less is asked of it. -/
theorem accept_bind {k : TokenKind} {f : Bool → Reader β} (ht : Recognizes (n - 1) (f true) L bad)
    (hf : Recognizes n (f false) M bad) (hM : Avoids M [k]) (hb : [] ∈ M → k ∈ bad) :
    Recognizes n (accept k >>= f) (kind k * L + M) bad where
  sound := by
    intro ts b ds rest hn h
    rw [run_accept_bind] at h
    split at h
    next hk =>
      cases ts with
      | nil => exact absurd hk not_next_nil
      | cons t ts =>
        simp only [List.length_cons] at hn
        obtain ⟨⟨u, hu, rfl⟩, hds⟩ := ht.sound (by simp only [List.tail_cons]; omega) h
        exact ⟨⟨t :: u, .inl ⟨[t], ⟨t, next_cons.mp hk, rfl⟩, u, hu, rfl⟩, rfl⟩, hds⟩
    next =>
      obtain ⟨⟨u, hu, rfl⟩, hds⟩ := hf.sound hn h
      exact ⟨⟨u, .inr hu, rfl⟩, hds⟩
  complete := by
    rintro used rest (⟨_, ⟨t, hk, rfl⟩, u, hu, rfl⟩ | hu) hn hc
    · simp only [List.length_append, List.length_singleton] at hn
      obtain ⟨b, ds, hb⟩ := ht.complete hu (by omega) hc
      exact ⟨b, ds, by simpa [run_accept_bind, hk] using hb⟩
    · have hk : ¬ Next k (used ++ rest) :=
        (Clear.append hu hM fun h => hc.mono (by simpa using hb (h ▸ hu))).not_next (by simp)
      rw [run_accept_bind, if_neg hk]
      exact hf.complete hu hn hc

/-- A part that a token of kind `k` announces, and what comes behind it. -/
theorem accept_optional {k : TokenKind} {f : Bool → Reader β}
    (ht : Recognizes (n - 1) (f true) (L * M) bad) (hf : Recognizes n (f false) M bad)
    (hM : Avoids M [k]) (hb : [] ∈ M → k ∈ bad) :
    Recognizes n (accept k >>= f) (optional (kind k * L) * M) bad := by
  rw [Grammar.optional, add_mul, one_mul, mul_assoc]
  exact accept_bind ht hf hM hb

/-- A token of kind `k` that may be missing. -/
theorem accept_bind_one {k : TokenKind} {f : Bool → Reader β}
    (hf : ∀ b m, Recognizes m (f b) 1 []) :
    Recognizes n (accept k >>= f) (optional (kind k)) [k] := by
  have h : Recognizes n (Reader.accept k >>= f) (kind k * 1 + 1) [k] :=
    accept_bind ((hf true (n - 1)).mono (by simp)) ((hf false n).mono (by simp)) avoids_one_word
      (by simp)
  rwa [mul_one] at h

theorem accept {k : TokenKind} : Recognizes n (accept k) (optional (kind k)) [k] := by
  rw [← bind_pure (Reader.accept k)]
  exact accept_bind_one fun b _ => pure b

theorem expect {k : TokenKind} : Recognizes n (expect k) (kind k) [] := take (by simp)

/-! ### Loops -/

theorem untilMark {close : Mark} {step : σ → Reader σ} (hs : ∀ s, Recognizes n (step s) L bad)
    (hnil : [] ∉ L) (hL : Avoids L (.mark close :: bad)) (hc : .mark close ∉ bad) (s : σ) :
    Recognizes n (untilMark close step s) (L∗ * mark close) [] where
  sound := by
    intro ts
    induction hlen : ts.length using Nat.strongRecOn generalizing ts s with
    | _ m ih =>
      intro a ds rest hn h
      rw [run_untilMark] at h
      split at h
      next hk =>
        cases h
        cases ts with
        | nil => exact absurd hk not_next_nil
        | cons t ts =>
          have ht : [t] ∈ mark close := ⟨t, next_cons.mp hk, rfl⟩
          exact ⟨⟨[t], ⟨[], Language.nil_mem_kstar L, [t], ht, rfl⟩, rfl⟩, by simp⟩
      next =>
        cases ha : (step s).run ts with
        | stuck fault es us => rw [run_bind_of_stuck ha] at h; cases h
        | done s' es us =>
          obtain ⟨⟨u, hu, rfl⟩, hes⟩ := (hs s).sound (by omega) ha
          rw [run_bind_of_done ha, Outcome.after_eq_done_iff] at h
          obtain ⟨fs, h, rfl⟩ := h
          by_cases hlt : us.length < (u ++ us).length
          · rw [run_below hlt] at h
            obtain ⟨⟨_, ⟨v, hv, c, hcl, rfl⟩, rfl⟩, hfs⟩ := ih _ (hlen ▸ hlt) s' rfl (by omega) h
            have huv : u ++ v ∈ L∗ := by
              rw [← Language.one_add_self_mul_kstar_eq_kstar]
              exact .inr ⟨u, hu, v, hv, rfl⟩
            refine ⟨⟨u ++ v ++ c, ⟨u ++ v, huv, c, hcl, rfl⟩, by simp⟩, fun d hd => ?_⟩
            exact (List.mem_append.mp hd).elim (hes d) (hfs d)
          · rw [run_below_of_not hlt, run_miss] at h
            cases h
  complete := by
    intro used rest hu hn _
    obtain ⟨w, hw, c, ⟨t, ht, rfl⟩, rfl⟩ := Language.mem_mul.mp hu
    obtain ⟨ws, rfl, hws⟩ := Language.mem_kstar.mp hw
    clear hu hw
    induction ws generalizing s with
    | nil => exact ⟨s, [], by simp [run_untilMark, ht]⟩
    | cons w ws ih =>
      have hw := hws w List.mem_cons_self
      have hws' : ∀ y ∈ ws, y ∈ L := fun y hy => hws y (List.mem_cons_of_mem _ hy)
      have hstar : ws.flatten ∈ L∗ := Language.mem_kstar.mpr ⟨ws, rfl, hws'⟩
      have hne : w ≠ [] := fun h => hnil (h ▸ hw)
      simp only [List.flatten_cons, List.append_assoc, List.singleton_append,
        List.length_append] at hn ⊢
      -- the step is taken, and it ends where the next word or the closing mark begins
      have hlater : Clear (.mark close :: bad) (w ++ (ws.flatten ++ t :: rest)) :=
        Clear.append hw hL fun h => absurd h hne
      have hnext : Clear bad (ws.flatten ++ t :: rest) :=
        Clear.append hstar (hL.mono (by simp)).star fun _ => by simpa [ht] using hc
      obtain ⟨s', ds, hs'⟩ := (hs s).complete hw (by omega) hnext
      obtain ⟨a, es, ha⟩ := ih s' hws' (by simp only [List.length_append]; omega)
      refine ⟨a, ds ++ es, ?_⟩
      rw [run_untilMark, if_neg (hlater.not_next (by simp)), run_bind_of_done hs', run_below]
      · rw [show ws.flatten ++ t :: rest = ws.flatten ++ [t] ++ rest by simp, ha,
          Outcome.after_done]
      · have := List.length_pos_iff.mpr hne
        simp only [List.length_append]
        omega

theorem whileMark {m : Mark} {step : σ → Reader σ} (hs : ∀ s, Recognizes n (step s) L bad)
    (hm : .mark m ∉ bad) (s : σ) :
    Recognizes n (whileMark m step s) (mark m * L)∗ (.mark m :: bad) where
  sound := by
    intro ts
    induction hlen : ts.length using Nat.strongRecOn generalizing ts s with
    | _ k ih =>
      intro a ds rest hn h
      rw [run_whileMark] at h
      split at h
      next hk =>
        cases ts with
        | nil => exact absurd hk not_next_nil
        | cons t ts =>
          simp only [List.tail_cons, List.length_cons] at h hlen
          cases ha : (step s).run ts with
          | stuck fault es us => rw [run_bind_of_stuck ha] at h; cases h
          | done s' es us =>
            obtain ⟨⟨u, hu, rfl⟩, hes⟩ := (hs s).sound (by omega) ha
            rw [run_bind_of_done ha, Outcome.after_eq_done_iff] at h
            obtain ⟨fs, h, rfl⟩ := h
            simp only [List.length_append] at hlen
            obtain ⟨⟨v, hv, rfl⟩, hfs⟩ := ih us.length (by omega) s' rfl (by omega) h
            have ht : [t] ∈ mark m := ⟨t, next_cons.mp hk, rfl⟩
            have huv : t :: u ++ v ∈ (mark m * L)∗ := by
              rw [← Language.one_add_self_mul_kstar_eq_kstar]
              exact .inr ⟨t :: u, ⟨[t], ht, u, hu, rfl⟩, v, hv, rfl⟩
            refine ⟨⟨t :: u ++ v, huv, by simp⟩, fun d hd => ?_⟩
            exact (List.mem_append.mp hd).elim (hes d) (hfs d)
      next =>
        cases h
        exact ⟨⟨[], Language.nil_mem_kstar _, rfl⟩, by simp⟩
  complete := by
    intro used rest hu hn hc
    obtain ⟨ws, rfl, hws⟩ := Language.mem_kstar.mp hu
    clear hu
    induction ws generalizing s with
    | nil =>
      exact ⟨s, [], by simp [run_whileMark, hc.not_next (k := .mark m) (by simp)]⟩
    | cons w ws ih =>
      obtain ⟨_, ⟨t, ht, rfl⟩, u, hu, rfl⟩ := Language.mem_mul.mp (hws w List.mem_cons_self)
      have hws' : ∀ y ∈ ws, y ∈ mark m * L := fun y hy => hws y (List.mem_cons_of_mem _ hy)
      have hstar : ws.flatten ∈ (mark m * L)∗ := Language.mem_kstar.mpr ⟨ws, rfl, hws'⟩
      simp only [List.flatten_cons, List.append_assoc, List.singleton_append, List.length_cons,
        List.length_append] at hn ⊢
      have hnext : Clear bad (ws.flatten ++ rest) :=
        Clear.append hstar (Avoids.kind_mul hm).star fun _ => hc.mono (by simp)
      obtain ⟨s', ds, hs'⟩ := (hs s).complete hu (by omega) hnext
      obtain ⟨a, es, ha⟩ := ih s' hws' (by omega)
      refine ⟨a, ds ++ es, ?_⟩
      rw [List.cons_append, run_whileMark, if_pos (next_cons.mpr ht), List.tail_cons,
        run_bind_of_done hs', ha, Outcome.after_done]

/-- One or more items with a mark between each two. -/
theorem separated {m : Mark} {item : Reader α} (hi : Recognizes n item L bad) (hm : .mark m ∉ bad) :
    Recognizes n (separated m item) (Grammar.separated m L) (.mark m :: bad) := by
  have hs : ∀ items : List α,
      Recognizes n (do return items ++ [← item] : Reader (List α)) L bad := fun items =>
    hi.bind_one fun a => (Recognizes.pure _).mono (by simp)
  exact hi.bind (fun a => whileMark hs hm [a]) (Avoids.kind_mul hm).star fun _ => by simp

/-- Items, none or more, between two marks, if the first mark is there. -/
theorem group {l r : Mark} {step : σ → Reader σ} (hs : ∀ s, Recognizes (n - 1) (step s) L bad)
    (hnil : [] ∉ L) (hL : Avoids L (.mark r :: bad)) (hr : .mark r ∉ bad) (s s' : σ) :
    Recognizes n (do if ← Reader.accept (.mark l) then Reader.untilMark r step s else return s')
      (optional (group l r L)) [.mark l] := by
  refine accept_bind ?_ ?_ avoids_one_word (by simp)
  · exact (untilMark hs hnil hL hr s).mono (by simp)
  · exact (Recognizes.pure s').mono (by simp)

end Recognizes

end SchemaLang.Reader
