import SchemaLang.Proofs.Reader.Productions

/-! The loops of the readers, and the readers that call themselves, without guards. Each of them
takes a token before it goes on, since no word that is read in between is empty. So no guard is ever
in its way, and the calls are nested no deeper than there are tokens. -/

namespace SchemaLang.Reader

variable {α σ : Type}

/-! ### Steps that take a token -/

theorem Recognizes.advances {r : Reader α} {L : Language Token} {bad : List TokenKind}
    (h : ∀ n, Recognizes n r L bad) (hnil : [] ∉ L) : Advances r := by
  intro ts a ds rest hrun
  obtain ⟨⟨used, hused, rfl⟩, -⟩ := (h (ts.length + 1)).sound (Nat.lt_succ_self _) hrun
  have hpos : 0 < used.length := List.length_pos_iff.mpr fun h => hnil (h ▸ hused)
  rw [List.length_append]
  omega

theorem advances_value : Advances value :=
  Recognizes.advances (fun _ => recognizes_value) nil_notMem_value

theorem advances_entry : Advances (entry value) :=
  Recognizes.advances (fun _ => recognizes_entry recognizes_value)
    (nil_notMem_mul_left nil_notMem_name)

theorem advances_inputValue : Advances inputValue :=
  Recognizes.advances (fun _ => recognizes_inputValue) nil_notMem_inputValue

theorem advances_field : Advances field :=
  Recognizes.advances (fun _ => recognizes_field) nil_notMem_field

theorem advances_enumValue : Advances enumValue :=
  Recognizes.advances (fun _ => recognizes_enumValue)
    (nil_notMem_mul_right (nil_notMem_mul_left nil_notMem_one))

theorem advances_rootOperation : Advances rootOperation :=
  Recognizes.advances (fun _ => recognizes_rootOperation)
    (nil_notMem_mul_left nil_notMem_operationKind)

/-- The loops up to a closing mark that readers make: the mark, and what is done in each step. -/
inductive ClosingLoop : {σ : Type} → Mark → (σ → Reader σ) → Prop
  | items : ClosingLoop .rbracket fun items : List Value => do return items ++ [← value]
  | entries : ClosingLoop .rbrace fun entries : List (String × Value) => do
      let (n, v) ← entry value
      return entries ++ [(n.value, v)]
  | arguments : ClosingLoop .rparen fun args : List Argument => do
      let (n, v) ← entry value
      return args ++ [⟨n, v⟩]
  | argumentDefinitions : ClosingLoop .rparen fun args => do addArgument args (← inputValue)
  | fields : ClosingLoop .rbrace fun table => do
      let f ← field
      addOnce table f.name f
  | inputFields : ClosingLoop .rbrace fun table => do
      let f ← inputValue
      addOnce table f.name f
  | enumValues : ClosingLoop .rbrace fun values : List EnumValue => do
      return values ++ [← enumValue]
  | operations : ClosingLoop .rbrace fun ops : List RootOperation => do
      return ops ++ [← rootOperation]

theorem ClosingLoop.advances {close : Mark} {step : σ → Reader σ} (h : ClosingLoop close step)
    (s : σ) : Advances (step s) := by
  cases h with
  | items => exact advances_value.bind _
  | entries | arguments => exact advances_entry.bind _
  | argumentDefinitions | inputFields => exact advances_inputValue.bind _
  | fields => exact advances_field.bind _
  | enumValues => exact advances_enumValue.bind _
  | operations => exact advances_rootOperation.bind _

/-! ### Loops and recursions -/

/-- The readers that go on by calling themselves: the reader, and the body that makes the calls. -/
inductive Recursive : {α σ : Type} → (σ → Reader α) → ((σ → Reader α) → σ → Reader α) → Prop
  | untilMark {σ : Type} {close : Mark} {step : σ → Reader σ} (h : ClosingLoop close step) :
      Recursive (untilMark close step) (untilMarkBody close step)
  | whileMark {σ : Type} (m : Mark) (step : σ → Reader σ) :
      Recursive (whileMark m step) (whileMarkBody m step)
  | typeRef : Recursive (fun _ : Unit => typeRef) fun again _ => typeRefBody (again ())
  | value : Recursive (fun _ : Unit => value) fun again _ => valueBody (again ())

/-- The reader is what its body makes of it, and however the body is put into itself more often than
there are tokens, what stands innermost is never called. -/
structure Ends (r : σ → Reader α) (body : (σ → Reader α) → σ → Reader α) : Prop where
  eq : r = body r
  run_iterate : ∀ bottom n s ts, ts.length < n → (body^[n] bottom s).run ts = (r s).run ts

theorem CallsAhead.ends {r : σ → Reader α} {body : (σ → Reader α) → σ → Reader α}
    (h : CallsAhead body) (hr : r = body r) : Ends r body :=
  ⟨hr, fun bottom _ s _ hn => h.run_iterate hr bottom hn s⟩

theorem Recursive.ends {r : σ → Reader α} {body : (σ → Reader α) → σ → Reader α}
    (h : Recursive r body) : Ends r body := by
  cases h with
  | untilMark h =>
    exact (callsAhead_untilMarkBody _ h.advances).ends (untilMark_eq _ h.advances)
  | whileMark m step => exact (callsAhead_whileMarkBody m step).ends (whileMark_eq m step)
  | typeRef => exact callsAhead_typeRefBody.ends (funext fun _ => typeRef_eq)
  | value => exact callsAhead_valueBody.ends (funext fun _ => value_eq)

end SchemaLang.Reader
