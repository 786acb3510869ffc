import SchemaLang.Proofs.Reader.Carries
import SchemaLang.Proofs.Reader.Yields

/-! Relations that readers have to themselves. Readers are put together from a few basic ones,
so a relation that the basic ones have, and that putting together keeps, is had by the readers
of all statements. One such relation is told here: what is found on the way to a definition is
structural. -/

namespace SchemaLang

namespace Reader

variable {α β σ τ : Type}

/-- The reader takes one token or gets stuck before it, as that token says. -/
def Single (r : Reader α) : Prop :=
  (∃ fault, r.run [] = .stuck fault [] []) ∧ ∀ t, (∃ a, ∀ ts, r.run (t :: ts) = .done a [] ts) ∨
    ∃ fault, ∀ ts, r.run (t :: ts) = .stuck fault [] (t :: ts)

theorem single_take (what : Expectation) (f : Token → Option α) : Single (take what f) := by
  refine ⟨⟨_, run_take what f []⟩, fun t => ?_⟩
  cases hf : f t with
  | some a =>
    left
    exact ⟨a, fun ts => by simp [run_take, hf]⟩
  | none =>
    right
    exact ⟨.expected what t.describe, fun ts => by simp [run_take, hf, describeNext]⟩

theorem single_name : Single name := single_take _ _

theorem single_enumValueName : Single enumValueName := by
  refine ⟨single_name.1, fun t => ?_⟩
  by_cases ht : t.kind.isConstant = true
  · right
    refine ⟨.expected .enumValue t.describe, fun ts => ?_⟩
    rw [run_enumValueName_cons, if_pos ht]
    rfl
  · have hname : ∀ ts, enumValueName.run (t :: ts) = name.run (t :: ts) := fun ts => by
      rw [run_enumValueName_cons, if_neg ht]
    simp only [hname]
    exact single_name.2 t

theorem single_directiveLocation : Single directiveLocation := by
  refine ⟨⟨_, rfl⟩, fun t => ?_⟩
  simp only [run_directiveLocation_cons]
  split
  · cases DirectiveLocation.ofText? t.text with
    | some l => exact .inl ⟨l, fun ts => rfl⟩
    | none => exact .inr ⟨_, fun ts => rfl⟩
  · exact .inr ⟨_, fun ts => rfl⟩

/-- A relation that the basic readers have to themselves and that is kept where readers are put
together. -/
structure Kept (R : ∀ α : Type, Reader α → Reader α → Prop) : Prop where
  pure : ∀ {α} (a : α), R α (pure a) (pure a)
  bind : ∀ {α β} {r r' : Reader α} {k k' : α → Reader β}, R α r r' → (∀ a, R β (k a) (k' a)) →
    R β (r >>= k) (r' >>= k')
  single : ∀ {α} {r : Reader α}, Single r → R α r r
  accept : ∀ k, R Bool (accept k) (accept k)
  description : R (Option String) description description
  note : ∀ d, d.kind = .structural → R Unit (note d) (note d)
  recursive : ∀ {α σ} {what : Expectation} {body body' : (σ → Reader α) → σ → Reader α},
    (∀ again again', (∀ s, R α (again s) (again' s)) → ∀ s, R α (body again s) (body' again' s)) →
      ∀ s, R α (recursive what body s) (recursive what body' s)

namespace Kept

variable {R : ∀ α : Type, Reader α → Reader α → Prop} (h : Kept R)

include h

/-! ### Putting together -/

theorem map {r r' : Reader α} (hr : R α r r') (f : α → β) : R β (f <$> r) (f <$> r') := by
  rw [map_eq_pure_bind, map_eq_pure_bind]
  exact h.bind hr fun a => h.pure (f a)

theorem take (what : Expectation) (f : Token → Option α) :
    R α (Reader.take what f) (Reader.take what f) := h.single (single_take what f)

theorem expect (k : TokenKind) : R Unit (expect k) (expect k) := h.take _ _

theorem acceptBind {k : TokenKind} {f f' : Bool → Reader α} (ht : R α (f true) (f' true))
    (hf : R α (f false) (f' false)) :
    R α (Reader.accept k >>= f) (Reader.accept k >>= f') := by
  apply h.bind (h.accept k)
  intro b
  cases b with
  | true => exact ht
  | false => exact hf

theorem untilMark {close : Mark} {step step' : σ → Reader σ} (hs : ∀ s, R σ (step s) (step' s))
    (s : σ) : R σ (untilMark close step s) (untilMark close step' s) :=
  h.recursive (fun _ _ hagain s => h.acceptBind (h.pure s) (h.bind (hs s) hagain)) s

theorem whileMark {m : Mark} {step step' : σ → Reader σ} (hs : ∀ s, R σ (step s) (step' s))
    (s : σ) : R σ (whileMark m step s) (whileMark m step' s) :=
  h.recursive (fun _ _ hagain s => h.acceptBind (h.bind (hs s) hagain) (h.pure s)) s

theorem separated {m : Mark} {item : Reader α} (hi : R α item item) :
    R (List α) (separated m item) (separated m item) := by
  apply h.bind hi
  intro a
  apply h.whileMark
  exact fun items => h.bind hi fun b => h.pure _

/-- Items between two marks, if the first mark is there. -/
theorem group {l r : Mark} {step : σ → Reader σ} {s s' : σ} (hs : ∀ s, R σ (step s) (step s)) :
    R σ (do if ← Reader.accept (.mark l) then Reader.untilMark r step s else return s')
      (do if ← Reader.accept (.mark l) then Reader.untilMark r step s else return s') :=
  h.acceptBind (h.untilMark hs s) (h.pure s')

/-! ### Names, types and values -/

theorem name : R Name name name := h.single single_name

theorem typeName : R TypeRef typeName typeName := h.bind h.name fun _ => h.pure _

theorem typeRef : R TypeRef typeRef typeRef := by
  apply h.recursive
  intro again again' hagain s
  have hbang : ∀ r : TypeRef, R TypeRef
      (do if ← Reader.accept (.mark .bang) then return r.wrap .nonNull
          return r)
      (do if ← Reader.accept (.mark .bang) then return r.wrap .nonNull
          return r) := fun r => h.acceptBind (h.pure _) (h.pure _)
  apply h.acceptBind
  · apply h.bind (hagain s)
    intro r
    apply h.bind (h.expect _)
    intro _
    simp only [pure_bind]
    exact hbang _
  · exact h.bind h.typeName hbang

theorem entry {r r' : Reader α} (hr : R α r r') : R (Name × α) (entry r) (entry r') :=
  h.bind h.name fun _ => h.bind (h.expect _) fun _ => h.bind hr fun _ => h.pure _

theorem value : R Value value value := by
  apply h.recursive
  intro again again' hagain s
  apply h.acceptBind
  · apply h.bind (h.untilMark (fun items => ?_) _) fun items => h.pure _
    exact h.bind (hagain s) fun v => h.pure _
  · apply h.acceptBind
    · apply h.bind (h.untilMark (fun entries => ?_) _) fun entries => h.pure _
      exact h.bind (h.entry (hagain s)) fun e => h.pure _
    · exact h.take _ _

theorem arguments : R (List Argument) arguments arguments :=
  h.group fun _ => h.bind (h.entry h.value) fun _ => h.pure _

theorem directives : R (List Directive) directives directives := by
  apply h.whileMark
  exact fun _ => h.bind h.name fun _ => h.bind h.arguments fun _ => h.pure _

/-! ### Fields and arguments -/

theorem inputValue : R InputValue inputValue inputValue := by
  refine h.bind h.description fun d => h.bind h.name fun n => h.bind (h.expect _) fun _ =>
    h.bind h.typeRef fun t => ?_
  have hlast : ∀ v : Option Value, R InputValue
      (do return ⟨d, n, t, v, ← Reader.directives⟩) (do return ⟨d, n, t, v, ← Reader.directives⟩) :=
    fun v => h.bind h.directives fun _ => h.pure _
  apply h.acceptBind
  · exact h.bind (h.map h.value some) hlast
  · exact h.bind (h.pure none) hlast

/-- What is noted about a repetition, and the item left out. -/
theorem noteOr {p : Prop} [Decidable p] {d : Diagnostic} (hd : d.kind = .structural) (a b : α) :
    R α (do if p then
              Reader.note d
              return a
            return b)
      (do if p then
            Reader.note d
            return a
          return b) := by
  by_cases hp : p
  · simp only [hp, if_true]
    exact h.bind (h.note d hd) fun _ => h.pure a
  · simp only [hp, if_false]
    exact h.pure b

theorem addOnce (table : Table α) (n : Name) (item : α) :
    R (Table α) (addOnce table n item) (addOnce table n item) := h.noteOr rfl _ _

theorem addArgument (args : List InputValue) (arg : InputValue) :
    R (List InputValue) (addArgument args arg) (addArgument args arg) := h.noteOr rfl _ _

theorem addInterface (rs : List TypeRef) (r : TypeRef) :
    R (List TypeRef) (addInterface rs r) (addInterface rs r) := h.noteOr rfl _ _

theorem argumentDefinitions :
    R (List InputValue) argumentDefinitions argumentDefinitions :=
  h.group fun args => h.bind h.inputValue fun v => h.addArgument args v

theorem field : R Field field field :=
  h.bind h.description fun _ => h.bind h.name fun _ => h.bind h.argumentDefinitions fun _ =>
    h.bind (h.expect _) fun _ => h.bind h.typeRef fun _ => h.bind h.directives fun _ => h.pure _

theorem fields : R (Table Field) fields fields :=
  h.group fun table => h.bind h.field fun f => h.addOnce table f.name f

theorem inputFields : R (Table InputValue) inputFields inputFields :=
  h.group fun table => h.bind h.inputValue fun f => h.addOnce table f.name f

theorem interfaces : R (List TypeRef) interfaces interfaces := by
  apply h.acceptBind
  · refine h.bind (h.accept _) fun _ => h.bind h.typeName fun r =>
      h.bind (h.addInterface [] r) fun first => h.whileMark (fun others => ?_) first
    exact h.bind h.typeName fun r => h.addInterface others r
  · exact h.pure []

/-! ### Types -/

theorem fieldSet : R (List Directive × FieldSet) fieldSet fieldSet :=
  h.bind h.interfaces fun _ => h.bind h.directives fun _ => h.bind h.fields fun _ => h.pure _

theorem members : R (List TypeRef) members members :=
  h.acceptBind (h.bind (h.accept _) fun _ => h.separated h.typeName) (h.pure [])

theorem enumValue : R EnumValue enumValue enumValue :=
  h.bind h.description fun _ => h.bind (h.single single_enumValueName) fun _ =>
    h.bind h.directives fun _ => h.pure _

theorem enumValues : R (List EnumValue) enumValues enumValues :=
  h.group fun _ => h.bind h.enumValue fun _ => h.pure _

theorem typeBody (k : TypeKind) : R (List Directive × TypeBody) (typeBody k) (typeBody k) := by
  cases k with
  | scalar => exact h.bind h.directives fun _ => h.pure _
  | object | interface => exact h.bind h.fieldSet fun _ => h.pure _
  | union => exact h.bind h.directives fun _ => h.bind h.members fun _ => h.pure _
  | enum => exact h.bind h.directives fun _ => h.bind h.enumValues fun _ => h.pure _
  | input => exact h.bind h.directives fun _ => h.bind h.inputFields fun _ => h.pure _

theorem typeDefinition (d : Option String) (k : TypeKind) :
    R TypeDefinition (typeDefinition d k) (typeDefinition d k) :=
  h.bind h.name fun _ => h.bind (h.typeBody k) fun _ => h.pure _

/-! ### Other definitions -/

theorem rootOperation : R RootOperation rootOperation rootOperation :=
  h.bind (h.take _ _) fun _ => h.bind (h.expect _) fun _ => h.bind h.typeName fun _ => h.pure _

theorem schema (d : Option String) : R Schema (schema d) (schema d) := by
  refine h.bind h.directives fun _ => h.bind (h.expect _) fun _ =>
    h.bind (h.untilMark (fun ops => ?_) []) fun _ => h.pure _
  exact h.bind h.rootOperation fun _ => h.pure _

theorem directiveDefinition (d : Option String) :
    R DirectiveDefinition (directiveDefinition d) (directiveDefinition d) :=
  h.bind (h.expect _) fun _ => h.bind h.name fun _ => h.bind h.argumentDefinitions fun _ =>
    h.bind (h.accept _) fun _ => h.bind (h.expect _) fun _ => h.bind (h.accept _) fun _ =>
      h.bind (h.separated (h.single single_directiveLocation)) fun _ => h.pure _

/-- The readers of all statements have the relation to themselves. -/
theorem definition (d : Option String) (k : StatementKind) :
    R Definition (definition d k) (definition d k) := by
  cases k with
  | schema => exact h.map (h.schema d) _
  | directive => exact h.map (h.directiveDefinition d) _
  | scalar | object | interface | union | enum | input => exact h.map (h.typeDefinition d _) _

end Kept

/-! ### What is found -/

theorem structural_iff_yields {r : Reader α} :
    (∀ ts, ∀ d ∈ (r.run ts).found, d.kind = .structural) ↔
      Yields (.all fun _ => True) (·.kind = .structural) r fun _ => True := by
  constructor
  · exact fun h ts _ => ⟨h ts, fun _ _ _ _ => True.intro⟩
  · exact fun h ts => (h ts fun _ _ => True.intro).found

/-- What is found on the way is structural. -/
theorem kept_structural :
    Kept fun _ r _ => ∀ ts, ∀ d ∈ (r.run ts).found, d.kind = .structural where
  pure a ts := nofun
  bind hr hk := structural_iff_yields.mpr
    ((structural_iff_yields.mp hr).bind fun a _ => structural_iff_yields.mp (hk a))
  single := by
    intro α r hr ts
    cases ts with
    | nil =>
      obtain ⟨fault, h⟩ := hr.1
      rw [h]
      nofun
    | cons t ts =>
      rcases hr.2 t with ⟨a, h⟩ | ⟨fault, h⟩
      all_goals
        rw [h]
        nofun
  accept k := structural_iff_yields.mpr (.accept k)
  description := structural_iff_yields.mpr .description
  note d hd := structural_iff_yields.mpr (.note hd)
  recursive := by
    intro α σ what body body' hbody s
    refine structural_iff_yields.mpr (.recursive (I := fun _ => True) (fun again h s _ => ?_)
      True.intro)
    exact structural_iff_yields.mp
      (hbody again again (fun s => structural_iff_yields.mpr (h s True.intro)) s)

end Reader

end SchemaLang
