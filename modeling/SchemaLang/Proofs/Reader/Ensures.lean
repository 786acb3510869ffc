import Mathlib.Data.List.Chain
import SchemaLang.Proofs.Document.WellFormed
import SchemaLang.Proofs.Reader.Yields
import SchemaLang.Proofs.Rounds

/-! What readers make is well-formed. A property of what a reader makes, if it makes something
of tokens that were cut from a text, is put together from the properties of its parts; loops
and readers that call themselves keep an invariant. -/

namespace SchemaLang

open Lexeme (IsPlain Relexes)

/-- A token as it is cut from a text. -/
def Token.IsCut (t : Token) : Prop :=
  ∃ c cs, t.kind = (Lexeme.scan c cs).kind ∧ t.text = String.ofList (Lexeme.scan c cs).text

theorem Token.IsCut.relexes {t : Token} (h : t.IsCut) (hk : IsPlain t.kind) :
    Relexes t.kind t.text.toList := by
  obtain ⟨c, cs, hkind, htext⟩ := h
  rw [hkind] at hk ⊢
  rw [htext, String.toList_ofList]
  exact Lexeme.relexes_scan hk

/-- The tokens of a text are cut from it. -/
theorem Tokens.isCut_words (c : Cursor) : ∀ t ∈ (ofCursor c).words, t.IsCut := by
  induction c using ofCursor.induct with
  | case1 c heof =>
    rw [ofCursor, dif_pos heof]
    simp
  | case2 c heof ih =>
    rw [ofCursor, dif_neg heof]
    intro t ht
    rcases List.mem_cons.mp ht with rfl | ht
    · unfold Cursor.next at heof ⊢
      dsimp only at heof ⊢
      split at heof
      next => exact absurd rfl heof
      next a cs hcs =>
        exact ⟨a, cs, rfl, rfl⟩
    · exact ih t ht

namespace Reader

variable {α β σ : Type}

/-- What the reader makes of tokens that are cut from a text has the property `P`. -/
def Ensures (r : Reader α) (P : α → Prop) : Prop :=
  ∀ ts, (∀ t ∈ ts, t.IsCut) → ∀ a ds rest, r.run ts = .done a ds rest → P a

namespace Ensures

variable {r : Reader α} {f : α → Reader β} {P P' : α → Prop} {Q : β → Prop}

/-! ### Rules -/

theorem trivial (r : Reader α) : Ensures r fun _ => True := fun _ _ _ _ _ _ => True.intro

theorem mono (h : Ensures r P) (hP : ∀ a, P a → P' a) : Ensures r P' :=
  fun ts hts a ds rest hr => hP a (h ts hts a ds rest hr)

theorem iff_yields :
    Ensures r P ↔ Yields (.all Token.IsCut) (fun _ => True) r P := by
  constructor
  · exact fun h ts hts => ⟨fun _ _ => True.intro, h ts hts⟩
  · exact fun h ts hts => (h ts hts).made

theorem pure {a : α} (h : P a) : Ensures (pure a) P := iff_yields.mpr (.pure h)

theorem bind (h : Ensures r P) (hf : ∀ a, P a → Ensures (f a) Q) : Ensures (r >>= f) Q :=
  iff_yields.mpr ((iff_yields.mp h).bind fun a ha => iff_yields.mp (hf a ha))

/-- What comes first does not matter. -/
theorem seq (hf : ∀ a, Ensures (f a) Q) : Ensures (r >>= f) Q :=
  (trivial r).bind fun a _ => hf a

theorem map {g : α → β} (h : Ensures r P) (hg : ∀ a, P a → Q (g a)) : Ensures (g <$> r) Q :=
  iff_yields.mpr ((iff_yields.mp h).map hg)

theorem take {what : Expectation} {g : Token → Option α}
    (h : ∀ t, t.IsCut → ∀ a, g t = some a → P a) : Ensures (take what g) P :=
  iff_yields.mpr (.take fun t _ hts => h t (hts t List.mem_cons_self))

theorem accept {k : TokenKind} {g : Bool → Reader β} (ht : Ensures (g true) Q)
    (hf : Ensures (g false) Q) : Ensures (accept k >>= g) Q :=
  iff_yields.mpr (.acceptBind (iff_yields.mp ht) (iff_yields.mp hf))

/-- A reader that calls itself ensures what its body ensures if the calls do. -/
theorem recursive {what : Expectation} {body : (σ → Reader α) → σ → Reader α} {I : σ → Prop}
    (h : ∀ again, (∀ s, I s → Ensures (again s) P) → ∀ s, I s → Ensures (body again s) P)
    {s : σ} (hs : I s) : Ensures (recursive what body s) P := by
  refine iff_yields.mpr (.recursive (fun again hagain s hs => ?_) hs)
  exact iff_yields.mp (h again (fun s hs => iff_yields.mpr (hagain s hs)) s hs)

theorem untilMark {close : Mark} {step : σ → Reader σ} {I : σ → Prop}
    (h : ∀ s, I s → Ensures (step s) I) {s : σ} (hs : I s) :
    Ensures (untilMark close step s) I :=
  iff_yields.mpr (.untilMark (fun s hs => iff_yields.mp (h s hs)) hs)

theorem whileMark {m : Mark} {step : σ → Reader σ} {I : σ → Prop}
    (h : ∀ s, I s → Ensures (step s) I) {s : σ} (hs : I s) : Ensures (whileMark m step s) I :=
  iff_yields.mpr (.whileMark (fun s hs => iff_yields.mp (h s hs)) hs)

theorem separated {m : Mark} {item : Reader α} (h : Ensures item P) :
    Ensures (separated m item) fun items => items ≠ [] ∧ ∀ a ∈ items, P a :=
  iff_yields.mpr (.separated (iff_yields.mp h))

end Ensures

/-! ### Names, types and values -/

theorem ensures_name : Ensures name fun n => IsName n.value := by
  refine .take fun t ht n hn => ?_
  split at hn
  next hk =>
    cases hn
    exact ⟨t.kind, hk, ht.relexes (.inl hk)⟩
  next => cases hn

theorem ensures_typeName : Ensures typeName TypeRef.IsNamed :=
  ensures_name.bind fun _ hn => .pure ⟨hn, rfl, rfl⟩

/-- A type that may get an exclamation mark. -/
theorem wellFormed_wrap {r : TypeRef} (h : r.WellFormed) {w : Wrapper}
    (hw : ∀ v ∈ r.wrappers.getLast?, v = .nonNull → w ≠ .nonNull) : (r.wrap w).WellFormed where
  name := h.name
  wrappers := by
    refine List.isChain_append.mpr ⟨h.wrappers, .singleton w, fun v hv u hu => ?_⟩
    obtain rfl : w = u := by simpa using hu
    exact hw v hv
  binding := h.binding

theorem ensures_typeRef : Ensures typeRef TypeRef.WellFormed := by
  refine .recursive (I := fun _ => True) (fun again hagain _ _ => ?_) True.intro
  have hbang : ∀ r : TypeRef, r.WellFormed → (∀ v ∈ r.wrappers.getLast?, v ≠ .nonNull) →
      Ensures (accept (.mark .bang) >>= fun b => if b then pure (r.wrap .nonNull) else pure r)
        TypeRef.WellFormed := by
    intro r hr hl
    exact .accept (.pure (wellFormed_wrap hr fun v hv hn => absurd hn (hl v hv))) (.pure hr)
  refine .accept ?_ ?_
  · simp only [if_true, pure_bind]
    refine (hagain () True.intro).bind fun r hr => .seq fun _ => hbang _ ?_ ?_
    · exact wellFormed_wrap hr fun v _ _ => nofun
    · intro v hv
      obtain rfl : .list = v := by simpa [TypeRef.wrap] using hv
      exact nofun
  · simp only [Bool.false_eq_true, if_false]
    refine ensures_typeName.bind fun r hr => hbang r ⟨hr.name, ?_, hr.binding⟩ ?_
    · rw [hr.wrappers]
      exact .nil
    · rw [hr.wrappers]
      simp

theorem wellFormed_scalarValue? {t : Token} (ht : t.IsCut) {v : Value}
    (h : scalarValue? t = some v) : v.WellFormed := by
  have hname (hk : t.kind.isName = true) (hc : t.kind.isConstant = false) :
      (Value.enum t.text).WellFormed := .enum hk hc (ht.relexes (.inl hk))
  unfold scalarValue? at h
  split at h
  next hk =>
    cases h
    exact .int (hk ▸ ht.relexes (.inr (.inl hk)))
  next hk =>
    cases h
    exact .float (hk ▸ ht.relexes (.inr (.inr hk)))
  next =>
    obtain ⟨s, -, rfl⟩ := Option.map_eq_some_iff.mp h
    exact .string s
  next =>
    obtain ⟨s, -, rfl⟩ := Option.map_eq_some_iff.mp h
    exact .string s
  next => cases h; exact .boolean true
  next => cases h; exact .boolean false
  next => cases h; exact .null
  next hk =>
    cases h
    exact hname (by rw [hk]; rfl) (by rw [hk]; rfl)
  next k hn hf ht hk =>
    cases h
    refine hname (by rw [hk]; rfl) ?_
    rw [hk]
    cases k <;> first | rfl | contradiction
  all_goals cases h

theorem ensures_entry {α : Type} {value : Reader α} {P : α → Prop} (h : Ensures value P) :
    Ensures (entry value) fun e => IsName e.1.value ∧ P e.2 :=
  ensures_name.bind fun _ hn => .seq fun _ => h.bind fun _ hv => .pure ⟨hn, hv⟩

theorem ensures_value : Ensures value Value.WellFormed := by
  refine .recursive (I := fun _ => True) (fun again hagain _ _ => ?_) True.intro
  have h := hagain () True.intro
  refine .accept ?_ (.accept ?_ (.take fun t ht v => wellFormed_scalarValue? ht))
  · refine .bind (.untilMark (I := fun items => ∀ v ∈ items, v.WellFormed) ?_ nofun) ?_
    · exact fun items hitems => h.bind fun v hv => .pure (Yields.append hitems hv)
    · exact fun items hitems => .pure (.list hitems)
  · refine .bind (.untilMark
      (I := fun entries => ∀ e ∈ entries, IsName e.1 ∧ Value.WellFormed e.2) ?_ nofun) ?_
    · intro entries hentries
      refine (ensures_entry h).bind fun e he => .pure ?_
      exact Yields.append (P := fun e : String × Value => IsName e.1 ∧ e.2.WellFormed) hentries he
    · exact fun entries hentries =>
        .pure (.object (fun e he => (hentries e he).1) fun e he => (hentries e he).2)

/-! ### Directives and arguments -/

theorem ensures_arguments : Ensures arguments fun args => ∀ a ∈ args, a.WellFormed := by
  refine .accept (.untilMark (fun args hargs => ?_) nofun) (.pure nofun)
  exact (ensures_entry ensures_value).bind fun e he =>
    .pure (Yields.append hargs (P := Argument.WellFormed) ⟨he.1, he.2⟩)

theorem ensures_directives : Ensures directives fun ds => ∀ d ∈ ds, d.WellFormed := by
  refine .whileMark (fun ds hds => ?_) nofun
  exact ensures_name.bind fun n hn => ensures_arguments.bind fun args hargs =>
    .pure (Yields.append hds (P := Directive.WellFormed) ⟨hn, hargs⟩)

/-- Names stay distinct when an item is added that shares its name with none of the others. -/
theorem nodup_map_append {α : Type} {n : α → String} {items : List α} {a : α}
    (h : (items.map n).Nodup) (ha : ¬ items.any (n · == n a) = true) :
    ((items ++ [a]).map n).Nodup := by
  rw [List.map_append, List.map_singleton]
  refine Table.nodup_append_of_not_mem h (Bool.eq_false_iff.mpr fun hc => ha ?_)
  obtain ⟨b, hb, heq⟩ := List.mem_map.mp (List.contains_iff_mem.mp hc)
  exact List.any_eq_true.mpr ⟨b, hb, by simp [heq]⟩

theorem ensures_inputValue : Ensures inputValue InputValue.WellFormed := by
  refine .seq fun description => ensures_name.bind fun n hn => .seq fun _ =>
    ensures_typeRef.bind fun r hr => ?_
  have hrest : ∀ v : Option Value, (∀ d ∈ v, d.WellFormed) →
      Ensures (do return (⟨description, n, r, v, ← directives⟩ : InputValue))
        InputValue.WellFormed :=
    fun v hv => ensures_directives.bind fun ds hds => .pure ⟨hn, hr, hv, hds⟩
  refine .accept ?_ ?_
  · exact (ensures_value.map fun v hv => by rintro _ ⟨⟩; exact hv).bind hrest
  · exact (Ensures.pure nofun).bind hrest

/-- Declared arguments stay so when one of a new name is added. -/
theorem ensures_addArgument {args : List InputValue} (h : InputValue.AreArguments args)
    {arg : InputValue} (ha : arg.WellFormed) :
    Ensures (addArgument args arg) InputValue.AreArguments := by
  unfold addArgument
  split
  next => exact .seq fun _ => .pure h
  next hany =>
    exact .pure ⟨Yields.append h.wellFormed ha, nodup_map_append h.distinct hany⟩

theorem ensures_argumentDefinitions : Ensures argumentDefinitions InputValue.AreArguments := by
  have hnil : InputValue.AreArguments [] := ⟨nofun, .nil⟩
  refine .accept (.untilMark (fun args hargs => ?_) hnil) (.pure hnil)
  exact ensures_inputValue.bind fun arg ha => ensures_addArgument hargs ha

theorem ensures_field : Ensures field Field.WellFormed :=
  .seq fun _ => ensures_name.bind fun _ hn => ensures_argumentDefinitions.bind fun _ hargs =>
    .seq fun _ => ensures_typeRef.bind fun _ hr => ensures_directives.bind fun _ hds =>
      .pure ⟨hn, hargs, hr, hds⟩

/-! ### Types -/

/-- A table of items under their names stays so when one of a new name is added. -/
theorem ensures_addOnce {α : Type} {n : α → Name} {P : α → Prop} {t : Table α}
    (h : t.KeyedBy (fun a => (n a).value) ∧ ∀ a ∈ t.values, P a) {a : α} (ha : P a) :
    Ensures (addOnce t (n a) a)
      fun u => u.KeyedBy (fun a => (n a).value) ∧ ∀ a ∈ u.values, P a := by
  unfold addOnce
  split
  next => exact .seq fun _ => .pure h
  next =>
    refine .pure ⟨h.1.insert a, fun b hb => ?_⟩
    rcases Table.mem_values_insert hb with rfl | hb
    · exact ha
    · exact h.2 b hb

theorem ensures_fields :
    Ensures fields fun t => t.KeyedBy (·.name.value) ∧ ∀ f ∈ t.values, f.WellFormed := by
  have hempty : (∅ : Table Field).KeyedBy (·.name.value) ∧
      ∀ f ∈ (∅ : Table Field).values, f.WellFormed := ⟨.empty, nofun⟩
  refine .accept (.untilMark (fun t ht => ?_) hempty) (.pure hempty)
  exact ensures_field.bind fun f hf => ensures_addOnce ht hf

theorem ensures_inputFields :
    Ensures inputFields fun t => t.KeyedBy (·.name.value) ∧ ∀ v ∈ t.values, v.WellFormed := by
  have hempty : (∅ : Table InputValue).KeyedBy (·.name.value) ∧
      ∀ v ∈ (∅ : Table InputValue).values, v.WellFormed := ⟨.empty, nofun⟩
  refine .accept (.untilMark (fun t ht => ?_) hempty) (.pure hempty)
  exact ensures_inputValue.bind fun v hv => ensures_addOnce ht hv

theorem ensures_addInterface {rs : List TypeRef} (h : TypeRef.AreInterfaces rs) {r : TypeRef}
    (hr : r.IsNamed) : Ensures (addInterface rs r) TypeRef.AreInterfaces := by
  unfold addInterface
  split
  next => exact .seq fun _ => .pure h
  next hany =>
    exact .pure ⟨Yields.append h.named hr, nodup_map_append h.distinct hany⟩

theorem ensures_interfaces : Ensures interfaces TypeRef.AreInterfaces := by
  have hnil : TypeRef.AreInterfaces [] := ⟨nofun, .nil⟩
  refine .accept (.seq fun _ => ensures_typeName.bind fun r hr => ?_) (.pure hnil)
  refine (ensures_addInterface hnil hr).bind fun rs hrs => .whileMark (fun rs hrs => ?_) hrs
  exact ensures_typeName.bind fun r hr => ensures_addInterface hrs hr

theorem ensures_fieldSet :
    Ensures fieldSet fun p => (∀ d ∈ p.1, d.WellFormed) ∧ p.2.WellFormed :=
  ensures_interfaces.bind fun _ hi => ensures_directives.bind fun _ hds =>
    ensures_fields.bind fun _ hf => .pure ⟨hds, hi, hf.1, hf.2⟩

theorem ensures_members : Ensures members fun rs => ∀ r ∈ rs, r.IsNamed :=
  .accept (.seq fun _ => (Ensures.separated ensures_typeName).mono fun _ h => h.2) (.pure nofun)

theorem ensures_enumValueName : Ensures enumValueName fun n =>
    ∃ k, k.isName = true ∧ k.isConstant = false ∧ Relexes k n.value.toList := by
  intro ts hts n ds rest hr
  unfold enumValueName at hr
  rw [run_look_bind] at hr
  split at hr
  next => cases hr
  next hany =>
    cases ts with
    | nil => cases hr
    | cons t ts =>
      rw [name, run_take] at hr
      by_cases hk : t.kind.isName = true
      · simp only [List.head?_cons, Option.bind_some, hk, if_true] at hr
        cases hr
        exact ⟨t.kind, hk, by simpa using hany, (hts t List.mem_cons_self).relexes (.inl hk)⟩
      · simp [hk] at hr

theorem ensures_enumValue : Ensures enumValue EnumValue.WellFormed :=
  .seq fun _ => ensures_enumValueName.bind fun _ hn => ensures_directives.bind fun _ hds =>
    .pure ⟨hn, hds⟩

theorem ensures_enumValues : Ensures enumValues fun vs => ∀ v ∈ vs, v.WellFormed :=
  .accept (.untilMark (fun _ hvs => ensures_enumValue.bind fun _ hv =>
    .pure (Yields.append hvs hv)) nofun) (.pure nofun)

theorem ensures_typeBody (k : TypeKind) :
    Ensures (typeBody k) fun p => (∀ d ∈ p.1, d.WellFormed) ∧ p.2.WellFormed := by
  cases k with
  | scalar => exact ensures_directives.bind fun _ hds => .pure ⟨hds, True.intro⟩
  | object => exact ensures_fieldSet.bind fun _ h => .pure h
  | interface => exact ensures_fieldSet.bind fun _ h => .pure h
  | union =>
    exact ensures_directives.bind fun _ hds => ensures_members.bind fun _ h => .pure ⟨hds, h⟩
  | enum =>
    exact ensures_directives.bind fun _ hds => ensures_enumValues.bind fun _ h => .pure ⟨hds, h⟩
  | input =>
    exact ensures_directives.bind fun _ hds => ensures_inputFields.bind fun _ h => .pure ⟨hds, h⟩

theorem ensures_typeDefinition (d : Option String) (k : TypeKind) :
    Ensures (typeDefinition d k) TypeDefinition.WellFormed :=
  ensures_name.bind fun _ hn => (ensures_typeBody k).bind fun _ h => .pure ⟨hn, h.1, h.2⟩

/-! ### Definitions -/

theorem ensures_rootOperation : Ensures rootOperation fun op => op.type.IsNamed :=
  .seq fun _ => .seq fun _ => ensures_typeName.bind fun _ hr => .pure hr

theorem ensures_schema (d : Option String) : Ensures (schema d) Schema.WellFormed := by
  refine ensures_directives.bind fun ds hds => .seq fun _ =>
    .bind (.untilMark (I := fun ops => ∀ op ∈ ops, op.type.IsNamed) ?_ nofun)
      fun ops hops => .pure ⟨hds, hops⟩
  exact fun ops hops => ensures_rootOperation.bind fun op hop =>
    .pure (Yields.append (P := fun op : RootOperation => op.type.IsNamed) hops hop)

theorem ensures_directiveDefinition (d : Option String) :
    Ensures (directiveDefinition d) DirectiveDefinition.WellFormed :=
  .seq fun _ => ensures_name.bind fun _ hn => ensures_argumentDefinitions.bind fun _ hargs =>
    .seq fun _ => .seq fun _ => .seq fun _ =>
      (Ensures.separated (.trivial directiveLocation)).bind fun _ hl => .pure ⟨hn, hargs, hl.1⟩

theorem ensures_definition (d : Option String) (k : StatementKind) :
    Ensures (definition d k) Definition.WellFormed := by
  cases k with
  | schema => exact (ensures_schema d).map fun _ h => h
  | directive => exact (ensures_directiveDefinition d).map fun _ h => h
  | scalar | object | interface | union | enum | input =>
    exact (ensures_typeDefinition d _).map fun _ h => h

end Reader

/-! ### Documents -/

/-- Every definition that is read is well-formed. -/
theorem wellFormed_items (stop : Token) {ts : List Token} (hts : ∀ t ∈ ts, t.IsCut) :
    ∀ i ∈ items stop ts, ∀ d ∈ i.definition?, d.WellFormed := by
  induction ts using items_induction with
  | nil => simp [items_nil]
  | ended ts hne hd => simp [items_of_end hne hd, Item.definition?]
  | other ts t rest hd hk => simp [items_of_other hd hk, Item.definition?]
  | done ts t rest k d ds rest' hd hk hrun ih =>
    have hrest : ∀ u ∈ rest, u.IsCut := fun u hu => hts u ((rest_suffix hd).subset hu)
    rw [items_of_done hd hk hrun]
    refine List.forall_mem_cons.mpr ⟨?_, ih fun u hu => hrest u ((suffix_of_done hrun).subset hu)⟩
    rintro _ ⟨⟩
    exact Reader.ensures_definition _ k rest hrest d ds rest' hrun
  | stuck ts t rest k fault ds rest' hd hk hrun ih =>
    rw [items_of_stuck hd hk hrun]
    refine List.forall_mem_cons.mpr ⟨nofun, ih fun u hu => ?_⟩
    exact hts u ((rest_suffix hd).subset ((resume_suffix_of_stuck hrun).subset hu))

/-- A document that was read from a text is well-formed. -/
theorem wellFormed_parse (source name : String) : (parse source name).document.WellFormed := by
  refine (Document.WellFormed.empty name).foldl_define fun v hv => ?_
  obtain ⟨i, hi, hv⟩ := List.mem_filterMap.mp hv
  exact wellFormed_items _ (Tokens.isCut_words _) i hi v hv

end SchemaLang
