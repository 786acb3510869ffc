import SchemaLang.Proofs.Document.Anchored
import SchemaLang.Proofs.Reader.Yields

/-! Readers keep the places of the words they take. The names and the references in what they make
stand where their words do, and what is noted about a repetition on the way stands at the word that
repeats. For interfaces, of which no name is told, the words before it show which one repeats. -/

namespace SchemaLang

/-- An interface of that name is named in the clause at the end of `before`. -/
def NamesInterface (before : List Token) (name : String) : Prop :=
  ∃ front t clause, before = front ++ t :: clause ∧ t.kind = .keyword .implements ∧
    (∀ u ∈ clause, u.kind = .mark .amp ∨ u.kind.isName = true) ∧
      ∃ u ∈ clause, u.kind.isName = true ∧ u.text = name

/-- What a diagnostic tells is repeated by the word that it stands at. -/
inductive Repetition (words : List Token) : Diagnostic → Prop
  | field {name : String} {l : Location} (h : Anchored words name l) :
      Repetition words ⟨.duplicateField name, l⟩
  | interface {before after : List Token} {t : Token} (hwords : words = before ++ t :: after)
      (ht : t.kind.isName = true) (h : NamesInterface before t.text) :
      Repetition words ⟨.duplicateInterface, t.location⟩

namespace Reader

open Yields

variable {α : Type} {words : List Token}

/-- What the reader makes of the words has the property `P`, and what it finds is repeated. -/
def Anchors (words : List Token) (r : Reader α) (P : α → Prop) : Prop :=
  Yields (.endsOf words) (Repetition words) r P

/-! ### Names, types and values -/

section

variable {D : Diagnostic → Prop}

theorem yields_name : Yields (.endsOf words) D name (Name.Anchored words) := by
  refine .take fun t ts hts n hn => ?_
  split at hn
  next hk =>
    cases hn
    exact ⟨t, List.IsSuffix.subset hts List.mem_cons_self, hk, rfl, rfl⟩
  next => cases hn

theorem yields_typeName : Yields (.endsOf words) D typeName (TypeRef.Anchored words) :=
  yields_name.bind fun _ hn => .pure hn

theorem yields_typeRef : Yields (.endsOf words) D typeRef (TypeRef.Anchored words) := by
  refine .recursive (I := fun _ => True) (fun again hagain _ _ => ?_) True.intro
  have hbang : ∀ r : TypeRef, r.Anchored words →
      Yields (.endsOf words) D
        (accept (.mark .bang) >>= fun b => if b then pure (r.wrap .nonNull) else pure r)
        (TypeRef.Anchored words) := fun r hr => .acceptBind (.pure hr) (.pure hr)
  refine .acceptBind ?_ ?_
  · simp only [if_true, pure_bind]
    exact (hagain () True.intro).bind fun r hr => (Yields.expect _).bind fun _ _ => hbang _ hr
  · exact yields_typeName.bind hbang

theorem yields_entry {value : Reader α} (h : Yields (.endsOf words) D value fun _ => True) :
    Yields (.endsOf words) D (entry value) fun _ => True :=
  yields_name.bind fun _ _ => (Yields.expect _).bind fun _ _ => h.bind fun _ _ => .pure True.intro

theorem yields_value : Yields (.endsOf words) D value fun _ => True := by
  refine .recursive (I := fun _ => True) (fun again hagain _ _ => ?_) True.intro
  have h := hagain () True.intro
  refine .acceptBind ?_ (.acceptBind ?_ (.take fun _ _ _ _ _ => True.intro))
  · refine .bind (.untilMark (I := fun _ => True) (fun items _ => ?_) True.intro) fun _ _ => ?_
    · exact h.bind fun _ _ => .pure True.intro
    · exact .pure True.intro
  · refine .bind (.untilMark (I := fun _ => True) (fun entries _ => ?_) True.intro) fun _ _ => ?_
    · exact (yields_entry h).bind fun _ _ => .pure True.intro
    · exact .pure True.intro

theorem yields_arguments : Yields (.endsOf words) D arguments fun _ => True := by
  refine .acceptBind (.untilMark (I := fun _ => True) (fun args _ => ?_) True.intro)
    (.pure True.intro)
  exact (yields_entry yields_value).bind fun _ _ => .pure True.intro

theorem yields_directives : Yields (.endsOf words) D directives fun _ => True := by
  refine .whileMark (I := fun _ => True) (fun ds _ => ?_) True.intro
  exact yields_name.bind fun _ _ => yields_arguments.bind fun _ _ => .pure True.intro

theorem yields_inputValue : Yields (.endsOf words) D inputValue (InputValue.Anchored words) := by
  refine Yields.description.bind fun description _ => yields_name.bind fun n hn =>
    (Yields.expect _).bind fun _ _ => yields_typeRef.bind fun r hr => ?_
  have hrest : ∀ v : Option Value, Yields (.endsOf words) D
      (do return (⟨description, n, r, v, ← directives⟩ : InputValue)) (InputValue.Anchored words) :=
    fun v => yields_directives.bind fun _ _ => .pure ⟨hn, hr⟩
  refine .acceptBind ?_ ?_
  · exact (yields_value.map (Q := fun _ => True) fun _ _ => True.intro).bind fun v _ => hrest v
  · exact (Yields.pure (P := fun _ => True) True.intro).bind fun v _ => hrest v

end

/-! ### Fields and arguments -/

theorem anchors_addArgument {args : List InputValue} (h : ∀ a ∈ args, a.Anchored words)
    {arg : InputValue} (ha : arg.Anchored words) :
    Anchors words (addArgument args arg) fun args => ∀ a ∈ args, a.Anchored words := by
  unfold addArgument
  split
  next => exact (Yields.note (.field ha.name)).bind fun _ _ => .pure h
  next => exact .pure (Yields.append h ha)

theorem anchors_argumentDefinitions :
    Anchors words argumentDefinitions fun args => ∀ a ∈ args, a.Anchored words := by
  refine .acceptBind (.untilMark (fun args hargs => ?_) nofun) (.pure nofun)
  exact yields_inputValue.bind fun arg ha => anchors_addArgument hargs ha

theorem anchors_field : Anchors words field (Field.Anchored words) :=
  Yields.description.bind fun _ _ => yields_name.bind fun _ hn =>
    anchors_argumentDefinitions.bind fun _ hargs => (Yields.expect _).bind fun _ _ =>
      yields_typeRef.bind fun _ hr => yields_directives.bind fun _ _ => .pure ⟨hn, hargs, hr⟩

theorem anchors_addOnce {P : α → Prop} {t : Table α} (h : ∀ a ∈ t.values, P a) {n : Name} {a : α}
    (hn : n.Anchored words) (ha : P a) :
    Anchors words (addOnce t n a) fun u => ∀ a ∈ u.values, P a := by
  unfold addOnce
  split
  next => exact (Yields.note (.field hn)).bind fun _ _ => .pure h
  next =>
    refine .pure fun b hb => ?_
    rcases Table.mem_values_insert hb with rfl | hb
    · exact ha
    · exact h b hb

theorem anchors_fields : Anchors words fields fun t => ∀ f ∈ t.values, f.Anchored words := by
  refine .acceptBind (.untilMark (fun t ht => ?_) nofun) (.pure nofun)
  exact anchors_field.bind fun f hf => anchors_addOnce ht hf.name hf

theorem anchors_inputFields :
    Anchors words inputFields fun t => ∀ v ∈ t.values, v.Anchored words := by
  refine .acceptBind (.untilMark (fun t ht => ?_) nofun) (.pure nofun)
  exact yields_inputValue.bind fun v hv => anchors_addOnce ht hv.name hv

/-! ### Interfaces -/

/-- One more interface. -/
def nextInterface (others : List TypeRef) : Reader (List TypeRef) := do
  addInterface others (← typeName)

theorem interfaces_eq : interfaces = (do
    if ← accept (.keyword .implements) then
      let _ ← accept (.mark .amp)
      nextInterface [] >>= whileMark .amp nextInterface
    else return []) := by
  simp only [nextInterface, bind_assoc]
  rfl

section Clause

variable {front clause ts : List Token} {t u : Token} {rs : List TypeRef}

/-- The name of one more interface is taken; if it was named before this is noted. -/
theorem exists_run_nextInterface (hwords : words = front ++ t :: (clause ++ u :: ts))
    (ht : t.kind = .keyword .implements)
    (hclause : ∀ u ∈ clause, u.kind = .mark .amp ∨ u.kind.isName = true)
    (hrs : ∀ r ∈ rs, r.Anchored clause) (hu : u.kind.isName = true) :
    ∃ rs' ds, (nextInterface rs).run (u :: ts) = .done rs' ds ts ∧
      (∀ d ∈ ds, Repetition words d) ∧ ∀ r ∈ rs', r.Anchored (clause ++ [u]) := by
  have hname : name.run (u :: ts) = .done ⟨u.text, u.location⟩ [] ts := by simp [name, run_take, hu]
  have htypeName : typeName.run (u :: ts) = .done (.named u.text u.location) [] ts := by
    rw [typeName, run_bind_of_done hname]
    rfl
  have hrun : (nextInterface rs).run (u :: ts) =
      (addInterface rs (.named u.text u.location)).run ts := by
    rw [nextInterface, run_bind_of_done htypeName, Outcome.after_nil]
  have hold : ∀ r ∈ rs, r.Anchored (clause ++ [u]) := fun r hr =>
    (hrs r hr).mono (List.subset_append_left clause [u])
  rw [hrun, addInterface]
  split
  next hany =>
    refine ⟨rs, _, rfl, List.forall_mem_singleton.mpr ?_, hold⟩
    obtain ⟨r, hr, hname⟩ := List.any_eq_true.mp hany
    obtain ⟨v, hv, hvk, hvt, -⟩ := hrs r hr
    have hsplit : words = (front ++ t :: clause) ++ u :: ts := by simp [hwords]
    refine .interface hsplit hu ?_
    exact ⟨front, t, clause, rfl, ht, hclause, v, hv, hvk, hvt.trans (beq_iff_eq.mp hname)⟩
  next =>
    refine ⟨_, [], rfl, nofun, Yields.append hold ?_⟩
    exact ⟨u, List.mem_append_right clause (List.mem_singleton_self u), hu, rfl, rfl⟩

theorem exists_run_nextInterface_of_not (rs : List TypeRef)
    (h : ∀ u ∈ ts.head?, u.kind.isName = false) :
    ∃ fault, (nextInterface rs).run ts = .stuck fault [] ts := by
  refine ⟨.expected .name (describeNext ts), run_bind_of_stuck (run_bind_of_stuck ?_ _) _⟩
  rw [name, run_take]
  cases ts with
  | nil => rfl
  | cons u ts => simp [h u rfl]

/-- The interfaces that are left to name when the clause has come as far as `clause`. -/
theorem has_moreInterfaces (hwords : words = front ++ t :: (clause ++ ts))
    (ht : t.kind = .keyword .implements)
    (hclause : ∀ u ∈ clause, u.kind = .mark .amp ∨ u.kind.isName = true)
    (hrs : ∀ r ∈ rs, r.Anchored clause) :
    ((nextInterface rs >>= whileMark .amp nextInterface).run ts).Has (Repetition words)
      fun rs => ∀ r ∈ rs, r.Anchored words := by
  induction hn : ts.length using Nat.strongRecOn generalizing clause ts rs with
  | _ n ih =>
    by_cases hnext : ∀ u ∈ ts.head?, u.kind.isName = false
    · obtain ⟨fault, hrun⟩ := exists_run_nextInterface_of_not rs hnext
      rw [run_bind_of_stuck hrun]
      exact .stuck nofun
    · push Not at hnext
      obtain ⟨u, hu, hk⟩ := hnext
      obtain ⟨ts, rfl⟩ := List.head?_eq_some_iff.mp hu
      rw [ne_eq, Bool.not_eq_false] at hk
      obtain ⟨rs', ds, hrun, hds, hrs'⟩ := exists_run_nextInterface hwords ht hclause hrs hk
      have hclause' := Yields.append hclause (.inr hk)
      rw [run_bind_of_done hrun, run_whileMark]
      split
      next hamp =>
        obtain ⟨m, hm, hamp⟩ := hamp
        obtain ⟨ts, rfl⟩ := List.head?_eq_some_iff.mp hm
        have hlt : ts.length < n := by
          simp only [List.length_cons] at hn
          omega
        have hsplit : words = front ++ t :: (clause ++ [u] ++ [m] ++ ts) := by simp [hwords]
        refine (ih _ hlt hsplit (Yields.append hclause' (.inl hamp)) (fun r hr => ?_) rfl).after hds
        exact (hrs' r hr).mono (List.subset_append_left _ [m])
      next =>
        refine (Outcome.Has.done nofun fun r hr => (hrs' r hr).mono ?_).after hds
        rw [hwords]
        intro v hv
        simp only [List.mem_append, List.mem_cons] at hv ⊢
        tauto

end Clause

theorem anchors_interfaces : Anchors words interfaces fun rs => ∀ r ∈ rs, r.Anchored words := by
  intro ts hts
  rw [interfaces_eq, run_accept_bind]
  split
  next h =>
    obtain ⟨t, ht, hk⟩ := h
    obtain ⟨ts, rfl⟩ := List.head?_eq_some_iff.mp ht
    obtain ⟨front, rfl⟩ := hts
    simp only [if_true, List.tail_cons, run_accept_bind]
    split
    next hamp =>
      obtain ⟨m, hm, hamp⟩ := hamp
      obtain ⟨ts, rfl⟩ := List.head?_eq_some_iff.mp hm
      have hsplit : front ++ t :: m :: ts = front ++ t :: ([m] ++ ts) := rfl
      exact has_moreInterfaces hsplit hk (by simp [hamp]) nofun
    next =>
      have hsplit : front ++ t :: ts = front ++ t :: ([] ++ ts) := rfl
      exact has_moreInterfaces hsplit hk nofun nofun
  next => exact .done nofun nofun

/-! ### Definitions -/

theorem anchors_fieldSet : Anchors words fieldSet fun p => p.2.Anchored words :=
  anchors_interfaces.bind fun _ hi => yields_directives.bind fun _ _ =>
    anchors_fields.bind fun _ hf => .pure ⟨hi, hf⟩

theorem anchors_members : Anchors words members fun rs => ∀ r ∈ rs, r.Anchored words :=
  .acceptBind ((Yields.accept _).bind fun _ _ =>
    (Yields.separated yields_typeName).mono fun _ h => h.2) (.pure nofun)

theorem anchors_enumValue : Anchors words enumValue fun _ => True := by
  refine Yields.description.bind fun _ _ => .bind (P := fun _ => True) ?_ fun _ _ =>
    yields_directives.bind fun _ _ => .pure True.intro
  refine Yields.look.bind fun t _ => ?_
  split
  next => exact .miss
  next => exact yields_name.trivial

theorem anchors_enumValues : Anchors words enumValues fun _ => True :=
  .acceptBind (.untilMark (fun _ _ => anchors_enumValue.bind fun _ _ => .pure True.intro)
    True.intro) (.pure True.intro)

theorem anchors_typeBody (k : TypeKind) :
    Anchors words (typeBody k) fun p => p.2.Anchored words := by
  cases k with
  | scalar => exact yields_directives.bind fun _ _ => .pure True.intro
  | object => exact anchors_fieldSet.bind fun _ h => .pure h
  | interface => exact anchors_fieldSet.bind fun _ h => .pure h
  | union => exact yields_directives.bind fun _ _ => anchors_members.bind fun _ h => .pure h
  | enum =>
    exact yields_directives.bind fun _ _ => anchors_enumValues.bind fun _ _ => .pure True.intro
  | input => exact yields_directives.bind fun _ _ => anchors_inputFields.bind fun _ h => .pure h

theorem anchors_typeDefinition (d : Option String) (k : TypeKind) :
    Anchors words (typeDefinition d k) (TypeDefinition.Anchored words) :=
  yields_name.bind fun _ hn => (anchors_typeBody k).bind fun _ h => .pure ⟨hn, h⟩

theorem anchors_rootOperation : Anchors words rootOperation fun op => op.type.Anchored words :=
  (Yields.take fun _ _ _ _ _ => True.intro).bind fun _ _ => (Yields.expect _).bind fun _ _ =>
    yields_typeName.bind fun _ hr => .pure hr

theorem anchors_schema (d : Option String) : Anchors words (schema d) (Schema.Anchored words) := by
  refine yields_directives.bind fun _ _ => (Yields.expect _).bind fun _ _ =>
    .bind (.untilMark (I := fun ops => ∀ op ∈ ops, op.type.Anchored words) ?_ nofun)
      fun ops hops => .pure fun op hop => hops op hop
  exact fun ops hops => anchors_rootOperation.bind fun op hop =>
    .pure (Yields.append (P := fun op : RootOperation => op.type.Anchored words) hops hop)

theorem anchors_directiveLocation : Anchors words directiveLocation fun _ => True := by
  refine Yields.look.bind fun t _ => ?_
  split
  next t =>
    split
    next =>
      split
      next => exact Yields.skip.bind fun _ _ => .pure True.intro
      next => exact .fail
    next => exact .miss
  next => exact .miss

theorem anchors_directiveDefinition (d : Option String) :
    Anchors words (directiveDefinition d) (DirectiveDefinition.Anchored words) :=
  (Yields.expect _).bind fun _ _ => yields_name.bind fun _ _ =>
    anchors_argumentDefinitions.bind fun _ hargs => (Yields.accept _).bind fun _ _ =>
      (Yields.expect _).bind fun _ _ => (Yields.accept _).bind fun _ _ =>
        (Yields.separated anchors_directiveLocation).bind fun _ _ => .pure hargs

/-- What is read of a statement stands where its words do. -/
theorem anchors_definition (d : Option String) (k : StatementKind) :
    Anchors words (definition d k) (Definition.Anchored words) := by
  cases k with
  | schema => exact (anchors_schema d).map fun _ h => h
  | directive => exact (anchors_directiveDefinition d).map fun _ h => h
  | scalar | object | interface | union | enum | input =>
    exact (anchors_typeDefinition d _).map fun _ h => h

end Reader

end SchemaLang
