import SchemaLang.Proofs.Document.Relabel
import SchemaLang.Proofs.Reader.Productions
import SchemaLang.Proofs.Text.Concat

/-! Readers given other places, and more tokens behind. What a reader makes of tokens that stand
elsewhere is what it made of them before, at the other places. If more tokens follow it makes
the same still, as long as it did not come to the end of what it was given, or what follows
begins a statement and so cannot go on with one. -/

namespace SchemaLang

/-- The diagnostic at another place. -/
def Diagnostic.place (f : Location → Location) (d : Diagnostic) : Diagnostic :=
  { d with location := f d.location }

/-- Nothing comes, or what may begin a statement: a description or a keyword. -/
def Fresh (ts : List Token) : Prop :=
  ∀ t ∈ ts.head?, t.kind.isString = true ∨ t.kind.startsStatement = true

instance (ts : List Token) : Decidable (Fresh ts) :=
  inferInstanceAs (Decidable (∀ t ∈ ts.head?, _))

theorem Fresh.nil : Fresh [] := nofun

namespace Outcome

variable {α β γ : Type} {f : Location → Location} {more : List Token} {g : α → β}

/-- The outcome at other places, with more tokens behind. -/
def carry (f : Location → Location) (more : List Token) (g : α → β) : Outcome α → Outcome β
  | done a ds rest => done (g a) (ds.map (Diagnostic.place f)) (rest.map (Token.place f) ++ more)
  | stuck fault ds rest =>
    stuck fault (ds.map (Diagnostic.place f)) (rest.map (Token.place f) ++ more)

/-- Can the outcome not be changed by what follows? -/
def Settled (more : List Token) : Outcome α → Prop
  | done _ _ rest => rest = [] → Fresh more
  | stuck _ _ rest => rest = [] → more = []

theorem carry_after (o : Outcome α) (before : Diagnostics) :
    (o.after before).carry f more g =
      (o.carry f more g).after (before.map (Diagnostic.place f)) := by
  cases o <;> simp [carry, after]

theorem settled_after {o : Outcome α} {before : Diagnostics} :
    (o.after before).Settled more ↔ o.Settled more := by
  cases o <;> rfl

/-- If the end of the tokens was reached, what follows begins a statement. -/
theorem Settled.fresh {o : Outcome α} (h : o.Settled more) (hr : o.rest = []) : Fresh more := by
  cases o with
  | done a ds rest => exact h hr
  | stuck fault ds rest => exact h hr ▸ Fresh.nil

end Outcome

theorem stringValue?_place (f : Location → Location) (t : Token) :
    (t.place f).stringValue? = t.stringValue? := rfl

theorem splitDescription_place (f : Location → Location) {ts : List Token} (h : ts ≠ [])
    (more : List Token) : splitDescription (ts.map (Token.place f) ++ more) =
      ((splitDescription ts).1, (splitDescription ts).2.map (Token.place f) ++ more) := by
  cases ts with
  | nil => exact absurd rfl h
  | cons t ts =>
    rw [List.map_cons, List.cons_append, splitDescription, splitDescription, stringValue?_place]
    cases t.stringValue? <;> rfl

namespace Reader

variable {α β γ δ σ τ : Type} {f : Location → Location} {more : List Token}

theorem describeNext_place {ts : List Token} (h : ts = [] → more = []) :
    describeNext (ts.map (Token.place f) ++ more) = describeNext ts := by
  cases ts with
  | nil => rw [h rfl]; rfl
  | cons t ts => rfl

/-- The reader `r'` makes of tokens at other places, with more behind, what `r` makes of the
tokens, at the other places. -/
def Carries (f : Location → Location) (more : List Token) (g : α → β) (r : Reader α)
    (r' : Reader β) : Prop :=
  ∀ ts, (r.run ts).Settled more →
    r'.run (ts.map (Token.place f) ++ more) = (r.run ts).carry f more g

namespace Carries

variable {g : α → β} {h : γ → δ} {r : Reader α} {r' : Reader β}

/-! ### Rules -/

theorem pure (a : α) : Carries f more g (pure a) (pure (g a)) := fun _ _ => rfl

theorem of_eq {b : β} (a : α) (hab : g a = b) : Carries f more g (Pure.pure a) (Pure.pure b) :=
  hab ▸ pure a

theorem note (d : Diagnostic) : Carries f more id (note d) (note (d.place f)) := fun _ _ => rfl

theorem miss (what : Expectation) : Carries f more g (miss what) (miss what) := by
  intro ts hs
  rw [run_miss, run_miss, describeNext_place hs]
  rfl

theorem bind (hr : Carries f more g r r') {k : α → Reader γ} {k' : β → Reader δ}
    (hk : ∀ a, Carries f more h (k a) (k' (g a))) : Carries f more h (r >>= k) (r' >>= k') := by
  intro ts hs
  cases hrun : r.run ts with
  | stuck fault ds rest =>
    rw [run_bind_of_stuck hrun] at hs ⊢
    have hr' := hr ts (by rw [hrun]; exact hs)
    rw [hrun] at hr'
    rw [run_bind_of_stuck hr']
    rfl
  | done a ds rest =>
    rw [run_bind_of_done hrun, Outcome.settled_after] at hs
    have hfirst : (r.run ts).Settled more := by
      rw [hrun]
      rintro rfl
      exact hs.fresh (List.suffix_nil.mp ((k a).rest_run_suffix []))
    have hr' := hr ts hfirst
    rw [hrun] at hr'
    rw [run_bind_of_done hrun, run_bind_of_done hr', hk a rest hs, Outcome.carry_after]

/-- What comes first leaves nothing to change. -/
theorem seq {r r' : Reader α} (hr : Carries f more id r r') {k : α → Reader γ} {k' : α → Reader δ}
    (hk : ∀ a, Carries f more h (k a) (k' a)) : Carries f more h (r >>= k) (r' >>= k') := hr.bind hk

theorem map (hr : Carries f more g r r') {k : α → γ} {k' : β → δ} (hk : ∀ a, h (k a) = k' (g a)) :
    Carries f more h (k <$> r) (k' <$> r') := by
  rw [map_eq_pure_bind, map_eq_pure_bind]
  exact hr.bind fun a => of_eq (k a) (hk a)

theorem ite {p q : Prop} [Decidable p] [Decidable q] {s : Reader α} {s' : Reader β} (hpq : p ↔ q)
    (hr : Carries f more g r r') (hs : Carries f more g s s') :
    Carries f more g (if p then r else s) (if q then r' else s') := by
  by_cases hp : p
  · rw [if_pos hp, if_pos (hpq.mp hp)]
    exact hr
  · rw [if_neg hp, if_neg (hpq.not.mp hp)]
    exact hs

theorem take (what : Expectation) {k : Token → Option α} {k' : Token → Option β}
    (hk : ∀ t, k' (t.place f) = (k t).map g) : Carries f more g (take what k) (take what k') := by
  intro ts hs
  rw [run_take] at hs ⊢
  rw [run_take]
  cases ts with
  | nil =>
    obtain rfl : more = [] := hs rfl
    rfl
  | cons t ts =>
    simp only [List.map_cons, List.cons_append, List.head?_cons, Option.bind_some, hk]
    cases k t <;> rfl

theorem expect (k : TokenKind) : Carries f more id (expect k) (expect k) := by
  refine take _ fun t => ?_
  rw [Option.map_id]
  rfl

/-- A token that may come next begins no statement, so it is not found behind the end. -/
theorem accept {k : TokenKind} (hk : k.isString = false ∧ k.startsStatement = false) :
    Carries f more id (accept k) (accept k) := by
  intro ts hs
  rw [run_accept] at hs ⊢
  rw [run_accept]
  cases ts with
  | nil =>
    rw [if_neg not_next_nil] at hs ⊢
    rw [if_neg]
    · rfl
    · rintro ⟨t, ht, rfl⟩
      have := hs rfl t ht
      simp [hk] at this
  | cons t ts =>
    simp only [List.map_cons, List.cons_append, next_cons]
    by_cases hkind : t.kind = k
    · rw [if_pos hkind, if_pos (show (t.place f).kind = k from hkind)]
      rfl
    · rw [if_neg hkind, if_neg (show ¬ (t.place f).kind = k from hkind)]
      rfl

theorem acceptMark (m : Mark) : Carries f more id (Reader.accept (.mark m)) (.accept (.mark m)) :=
  accept ⟨rfl, rfl⟩

theorem below {n m : Nat} {what : Expectation} (hr : ∀ ts, ts.length < n → (r.run ts).Settled more →
      r'.run (ts.map (Token.place f) ++ more) = (r.run ts).carry f more g)
    (hm : m = n + more.length) :
    Carries f more g (below n what r) (below m what r') := by
  intro ts hs
  by_cases hlt : ts.length < n
  · rw [run_below hlt] at hs ⊢
    rw [run_below (by simp; omega)]
    exact hr ts hlt hs
  · rw [run_below_of_not hlt] at hs ⊢
    rw [run_below_of_not (by simp; omega)]
    exact miss what ts hs

theorem recursive {what : Expectation} {e : σ → τ} {body : (σ → Reader α) → σ → Reader α}
    {body' : (τ → Reader β) → τ → Reader β}
    (hbody : ∀ again again', (∀ s, Carries f more g (again s) (again' (e s))) →
      ∀ s, Carries f more g (body again s) (body' again' (e s))) (s : σ) :
    Carries f more g (recursive what body s) (recursive what body' (e s)) := by
  intro ts
  induction hn : ts.length using Nat.strongRecOn generalizing ts s with
  | _ n ih =>
    intro hs
    rw [run_recursive] at hs ⊢
    rw [run_recursive]
    refine hbody _ _ (fun s' => ?_) s ts hs
    refine below (fun us hlt hus => ih us.length (hn ▸ hlt) s' us rfl hus) ?_
    simp

theorem untilMark {close : Mark} {e : σ → τ} {step : σ → Reader σ} {step' : τ → Reader τ}
    (hs : ∀ s, Carries f more e (step s) (step' (e s))) (s : σ) :
    Carries f more e (untilMark close step s) (untilMark close step' (e s)) := by
  refine recursive (e := e) (fun again again' hagain s => ?_) s
  refine seq (acceptMark _) fun b => ?_
  cases b with
  | false => exact (hs s).bind hagain
  | true => exact pure s

theorem whileMark {m : Mark} {e : σ → τ} {step : σ → Reader σ} {step' : τ → Reader τ}
    (hs : ∀ s, Carries f more e (step s) (step' (e s))) (s : σ) :
    Carries f more e (whileMark m step s) (whileMark m step' (e s)) := by
  refine recursive (e := e) (fun again again' hagain s => ?_) s
  refine seq (acceptMark _) fun b => ?_
  cases b with
  | false => exact pure s
  | true => exact (hs s).bind hagain

theorem separated {m : Mark} (hr : Carries f more g r r') :
    Carries f more (List.map g) (separated m r) (separated m r') := by
  refine hr.bind fun a => whileMark (fun items => hr.bind fun b => ?_) [a]
  exact of_eq (items ++ [b]) List.map_append

end Carries

/-- Does the reader get stuck if there is no token? -/
def Needs (r : Reader α) : Prop := ∃ fault ds, r.run [] = .stuck fault ds []

theorem Needs.bind {r : Reader α} (h : Needs r) (k : α → Reader β) : Needs (r >>= k) := by
  obtain ⟨fault, ds, hr⟩ := h
  exact ⟨fault, ds, run_bind_of_stuck hr k⟩

theorem needs_name : Needs name := ⟨_, _, run_take _ _ []⟩

/-- A description is not found behind the end if something has to follow it. -/
theorem Carries.description {h : γ → δ} {k : Option String → Reader γ}
    {k' : Option String → Reader δ} (hk : ∀ d, Carries f more h (k d) (k' d))
    (hneeds : Needs (k none)) :
    Carries f more h (Reader.description >>= k) (Reader.description >>= k') := by
  intro ts hs
  by_cases hts : ts = []
  · subst hts
    rw [run_bind_of_done (run_description []), Outcome.settled_after] at hs
    obtain ⟨fault, ds, hstuck⟩ := hneeds
    obtain rfl : more = [] := by
      rw [show (splitDescription []).1 = none from rfl, show (splitDescription []).2 = [] from rfl,
        hstuck] at hs
      exact hs rfl
    rw [List.map_nil, List.append_nil, run_bind_of_done (run_description []),
      run_bind_of_done (run_description []), Outcome.after_nil, Outcome.after_nil]
    exact hk none [] hs
  · rw [run_bind_of_done (run_description ts), Outcome.after_nil] at hs ⊢
    rw [run_bind_of_done (run_description _), Outcome.after_nil, splitDescription_place f hts]
    exact hk _ _ hs

/-! ### Names, types and values -/

section

variable (f more)

theorem carries_name : Carries f more (Name.relabel (.moving f)) name name := by
  refine .take _ fun t => ?_
  cases hk : t.kind.isName <;> simp [Token.place, hk, Name.relabel, Relabeling.moving]

theorem carries_typeName : Carries f more (Relabeling.moving f).ref typeName typeName :=
  (carries_name f more).bind fun _ => .pure _

theorem carries_typeRef : Carries f more (Relabeling.moving f).ref typeRef typeRef := by
  refine .recursive (e := id) (fun again again' hagain s => ?_) ()
  have hbang : ∀ r : TypeRef, Carries f more (Relabeling.moving f).ref
      (do if ← accept (.mark .bang) then return r.wrap .nonNull
          return r)
      (do if ← accept (.mark .bang) then return ((Relabeling.moving f).ref r).wrap .nonNull
          return (Relabeling.moving f).ref r) := by
    intro r
    refine .seq (.acceptMark _) fun b => ?_
    cases b <;> exact .pure _
  refine .seq (.acceptMark _) fun b => ?_
  cases b with
  | false => exact (carries_typeName f more).bind hbang
  | true =>
    refine (hagain s).bind fun r => .seq (.expect _) fun _ => ?_
    simp only [pure_bind]
    exact hbang (r.wrap .list)

theorem carries_entry {r r' : Reader α} {g : α → α} (hr : Carries f more g r r') :
    Carries f more (Prod.map (Name.relabel (.moving f)) g) (entry r) (entry r') :=
  (carries_name f more).bind fun _ => .seq (.expect _) fun _ => hr.bind fun _ => .pure _

theorem carries_value : Carries f more id value value := by
  refine .recursive (e := id) (fun again again' hagain s => ?_) ()
  refine .seq (.acceptMark _) fun b => ?_
  cases b with
  | true =>
    simp only [if_true]
    refine .seq (.untilMark (e := id) (fun items => ?_) []) fun items => .pure _
    exact (hagain s).seq fun v => .pure _
  | false =>
    refine .seq (.acceptMark _) fun b => ?_
    cases b with
    | true =>
      simp only [if_true]
      refine .seq (.untilMark (e := id) (fun entries => ?_) []) fun entries => .pure _
      exact (carries_entry f more (hagain s)).bind fun e => .pure _
    | false => exact .take _ fun t => (Option.map_id_apply).symm

theorem carries_arguments : Carries f more (List.map (Argument.relabel (.moving f)))
    arguments arguments := by
  refine .seq (.acceptMark _) fun b => ?_
  cases b with
  | true =>
    refine .untilMark (fun args => ?_) []
    refine (carries_entry f more (carries_value f more)).bind fun e => .of_eq _ ?_
    exact List.map_append
  | false => exact .pure _

theorem carries_directives : Carries f more (List.map (Directive.relabel (.moving f)))
    directives directives := by
  refine .whileMark (fun ds => ?_) []
  refine (carries_name f more).bind fun n => (carries_arguments f more).bind fun args => .of_eq _ ?_
  exact List.map_append

/-! ### Fields and arguments -/

theorem carries_inputValue :
    Carries f more (InputValue.relabel (.moving f) id) inputValue inputValue := by
  refine .description (fun d => ?_) (needs_name.bind _)
  refine (carries_name f more).bind fun n => .seq (.expect _) fun _ =>
    (carries_typeRef f more).bind fun r => .seq (.acceptMark _) fun b => ?_
  have hlast : ∀ v : Option Value, Carries f more (InputValue.relabel (.moving f) id)
      (do return ⟨d, n, r, v, ← directives⟩)
      (do return ⟨d, n.relabel (.moving f), (Relabeling.moving f).ref r, v, ← directives⟩) := by
    intro v
    refine (carries_directives f more).bind fun ds => .of_eq _ ?_
    rw [InputValue.relabel, Option.map_id]
    rfl
  cases b with
  | true =>
    simp only [if_true, map_eq_pure_bind, bind_assoc, pure_bind]
    exact (carries_value f more).seq fun v => hlast (some v)
  | false =>
    simp only [Bool.false_eq_true, if_false, pure_bind]
    exact hlast none

theorem carries_addOnce {g : α → α} (table : Table α) (n : Name) (item : α) :
    Carries f more (Table.map g) (addOnce table n item)
      (addOnce (table.map g) (n.relabel (.moving f)) (g item)) := by
  refine .ite ?_ (.seq (.note _) fun _ => .pure _)
    (.of_eq _ (Table.map_insert g table n.value item))
  rw [Table.contains, Table.contains, Table.keys_map]
  rfl

theorem carries_addArgument (args : List InputValue) (arg : InputValue) :
    Carries f more (List.map (InputValue.relabel (.moving f) id)) (addArgument args arg)
      (addArgument (args.map (InputValue.relabel (.moving f) id))
        (arg.relabel (.moving f) id)) := by
  refine .ite ?_ (.seq (.note _) fun _ => .pure _) (.of_eq _ List.map_append)
  rw [List.any_map]
  rfl

theorem carries_addInterface (rs : List TypeRef) (r : TypeRef) :
    Carries f more (List.map (Relabeling.moving f).ref) (addInterface rs r)
      (addInterface (rs.map (Relabeling.moving f).ref) ((Relabeling.moving f).ref r)) := by
  refine .ite ?_ (.seq (.note _) fun _ => .pure _) (.of_eq _ List.map_append)
  rw [List.any_map]
  rfl

/-- Items between two marks, if the first mark is there. -/
theorem carries_group {e : σ → σ} {l r : Mark} {step : σ → Reader σ} {s s' : σ}
    (hs : ∀ s, Carries f more e (step s) (step (e s))) (he : e s = s) (he' : e s' = s') :
    Carries f more e
      (do if ← Reader.accept (.mark l) then Reader.untilMark r step s else return s')
      (do if ← Reader.accept (.mark l) then Reader.untilMark r step s else return s') := by
  refine .seq (.acceptMark _) fun b => ?_
  cases b with
  | true =>
    have h : Carries f more e (Reader.untilMark r step s) (Reader.untilMark r step (e s)) :=
      .untilMark hs s
    rw [he] at h
    exact h
  | false => exact .of_eq _ he'

theorem carries_argumentDefinitions :
    Carries f more (List.map (InputValue.relabel (.moving f) id)) argumentDefinitions
      argumentDefinitions :=
  carries_group f more
    (fun args => (carries_inputValue f more).bind fun v => carries_addArgument f more args v)
    rfl rfl

theorem carries_field : Carries f more (Field.relabel (.moving f)) field field := by
  refine .description (fun d => ?_) (needs_name.bind _)
  refine (carries_name f more).bind fun n => (carries_argumentDefinitions f more).bind fun args =>
    .seq (.expect _) fun _ => (carries_typeRef f more).bind fun r =>
      (carries_directives f more).bind fun ds => .of_eq _ ?_
  change Field.mk (d.map id) _ _ _ _ = _
  rw [Option.map_id]
  rfl

theorem carries_fields : Carries f more (Table.map (Field.relabel (.moving f))) fields fields :=
  carries_group f more
    (fun table => (carries_field f more).bind fun fd => carries_addOnce f more table fd.name fd)
    rfl rfl

theorem carries_inputFields :
    Carries f more (Table.map (InputValue.relabel (.moving f) id)) inputFields inputFields :=
  carries_group f more
    (fun table => (carries_inputValue f more).bind fun v => carries_addOnce f more table v.name v)
    rfl rfl

theorem carries_interfaces :
    Carries f more (List.map (Relabeling.moving f).ref) interfaces interfaces := by
  refine .seq (.accept ⟨rfl, rfl⟩) fun b => ?_
  cases b with
  | true =>
    refine .seq (.acceptMark _) fun _ => (carries_typeName f more).bind fun r =>
      (carries_addInterface f more [] r).bind fun first => .whileMark (fun rs => ?_) first
    exact (carries_typeName f more).bind fun r => carries_addInterface f more rs r
  | false => exact .pure _

/-! ### Types -/

theorem carries_fieldSet :
    Carries f more (Prod.map (List.map (Directive.relabel (.moving f)))
      (FieldSet.relabel (.moving f))) fieldSet fieldSet :=
  (carries_interfaces f more).bind fun _ => (carries_directives f more).bind fun _ =>
    (carries_fields f more).bind fun _ => .pure _

theorem carries_members : Carries f more (List.map (Relabeling.moving f).ref) members members := by
  refine .seq (.acceptMark _) fun b => ?_
  cases b with
  | true => exact .seq (.acceptMark _) fun _ => (carries_typeName f more).separated
  | false => exact .pure _

theorem run_enumValueName_cons (t : Token) (ts : List Token) : enumValueName.run (t :: ts) =
    if t.kind.isConstant then (miss .enumValue : Reader Name).run (t :: ts)
    else name.run (t :: ts) := by
  rw [enumValueName, run_look_bind]
  change (if t.kind.isConstant = true then miss .enumValue else name : Reader Name).run _ = _
  split <;> rfl

theorem carries_enumValueName :
    Carries f more (Name.relabel (.moving f)) enumValueName enumValueName := by
  intro ts hs
  cases ts with
  | nil =>
    obtain rfl : more = [] := hs rfl
    rfl
  | cons t ts =>
    rw [run_enumValueName_cons] at hs ⊢
    rw [List.map_cons, List.cons_append, run_enumValueName_cons]
    by_cases h : t.kind.isConstant = true
    · rw [if_pos h] at hs ⊢
      rw [if_pos (show (t.place f).kind.isConstant = true from h)]
      exact Carries.miss _ (t :: ts) hs
    · rw [if_neg h] at hs ⊢
      rw [if_neg (show ¬ (t.place f).kind.isConstant = true from h)]
      exact carries_name f more (t :: ts) hs

theorem needs_enumValueName : Needs enumValueName := needs_name

theorem carries_enumValue :
    Carries f more (EnumValue.relabel (.moving f)) enumValue enumValue := by
  refine .description (fun d => ?_) (needs_enumValueName.bind _)
  refine (carries_enumValueName f more).bind fun n =>
    (carries_directives f more).bind fun ds => .of_eq _ ?_
  change EnumValue.mk (d.map id) _ _ = _
  rw [Option.map_id]
  rfl

theorem carries_enumValues :
    Carries f more (List.map (EnumValue.relabel (.moving f))) enumValues enumValues :=
  carries_group f more
    (fun _ => (carries_enumValue f more).bind fun _ => .of_eq _ List.map_append) rfl rfl

theorem carries_typeBody (k : TypeKind) :
    Carries f more (Prod.map (List.map (Directive.relabel (.moving f)))
      (TypeBody.relabel (.moving f))) (typeBody k) (typeBody k) := by
  cases k with
  | scalar => exact (carries_directives f more).bind fun _ => .pure _
  | object => exact (carries_fieldSet f more).bind fun _ => .pure _
  | interface => exact (carries_fieldSet f more).bind fun _ => .pure _
  | union =>
    exact (carries_directives f more).bind fun _ => (carries_members f more).bind fun _ => .pure _
  | enum =>
    exact (carries_directives f more).bind fun _ =>
      (carries_enumValues f more).bind fun _ => .pure _
  | input =>
    exact (carries_directives f more).bind fun _ =>
      (carries_inputFields f more).bind fun _ => .pure _

theorem carries_typeDefinition (d : Option String) (k : TypeKind) :
    Carries f more (TypeDefinition.relabel (.moving f)) (typeDefinition d k)
      (typeDefinition d k) := by
  refine (carries_name f more).bind fun n => (carries_typeBody f more k).bind fun b => .of_eq _ ?_
  change TypeDefinition.mk (d.map id) _ _ _ = _
  rw [Option.map_id]
  rfl

/-! ### Other definitions -/

theorem carries_rootOperation :
    Carries f more (RootOperation.relabel (.moving f)) rootOperation rootOperation := by
  have hkind : Carries f more id operationKind operationKind :=
    .take _ fun _ => Option.map_id_apply.symm
  exact hkind.seq fun k => .seq (.expect _) fun _ =>
    (carries_typeName f more).bind fun r => .of_eq (RootOperation.mk k r) rfl

theorem carries_schema (d : Option String) :
    Carries f more (Schema.relabel (.moving f)) (schema d) (schema d) := by
  have hops : Carries f more (List.map (RootOperation.relabel (.moving f)))
      (untilMark .rbrace (fun ops => do return ops ++ [← rootOperation]) [])
      (untilMark .rbrace (fun ops => do return ops ++ [← rootOperation]) []) := by
    refine .untilMark (fun ops => ?_) []
    refine (carries_rootOperation f more).bind fun op => ?_
    exact .of_eq (ops ++ [op]) List.map_append
  refine (carries_directives f more).bind fun ds => .seq (.expect _) fun _ =>
    hops.bind fun ops => ?_
  refine .of_eq (Schema.mk d ds ops) ?_
  change Schema.mk (d.map id) _ _ = _
  rw [Option.map_id]
  rfl

theorem run_directiveLocation_cons (t : Token) (ts : List Token) :
    directiveLocation.run (t :: ts) =
      if t.kind = .ident then
        match DirectiveLocation.ofText? t.text with
        | some l => .done l [] ts
        | none => .stuck (.unknownLocation t.text) [] (t :: ts)
      else .stuck (.expected .directiveLocation t.describe) [] (t :: ts) := by
  rw [directiveLocation, run_look_bind]
  dsimp only [List.head?_cons]
  split
  · cases DirectiveLocation.ofText? t.text <;> rfl
  · rfl

theorem carries_directiveLocation : Carries f more id directiveLocation directiveLocation := by
  intro ts hs
  cases ts with
  | nil =>
    obtain rfl : more = [] := hs rfl
    rfl
  | cons t ts =>
    rw [List.map_cons, List.cons_append, run_directiveLocation_cons, run_directiveLocation_cons]
    by_cases h : t.kind = .ident
    · rw [if_pos h, if_pos (show (t.place f).kind = .ident from h),
        show (t.place f).text = t.text from rfl]
      cases DirectiveLocation.ofText? t.text <;> rfl
    · rw [if_neg h, if_neg (show ¬ (t.place f).kind = .ident from h)]
      rfl

theorem carries_directiveDefinition (d : Option String) :
    Carries f more (DirectiveDefinition.relabel (.moving f)) (directiveDefinition d)
      (directiveDefinition d) := by
  refine .seq (.expect _) fun _ => (carries_name f more).bind fun n =>
    (carries_argumentDefinitions f more).bind fun args => .seq (.accept ⟨rfl, rfl⟩) fun b =>
      .seq (.expect _) fun _ => .seq (.acceptMark _) fun _ =>
        (carries_directiveLocation f more).separated.bind fun ls => .of_eq _ ?_
  change DirectiveDefinition.mk (d.map id) _ _ _ _ = _
  rw [Option.map_id, List.map_id]
  rfl

theorem carries_definition (d : Option String) (k : StatementKind) :
    Carries f more (Definition.relabel (.moving f)) (definition d k) (definition d k) := by
  cases k with
  | schema => exact (carries_schema f more d).map fun _ => rfl
  | directive => exact (carries_directiveDefinition f more d).map fun _ => rfl
  | scalar | object | interface | union | enum | input =>
    exact (carries_typeDefinition f more d _).map fun _ => rfl

end

end Reader

end SchemaLang
