import Mathlib.Data.List.Chain
import SchemaLang.Proofs.Document.Layout
import SchemaLang.Proofs.Document.Plain
import SchemaLang.Proofs.Reader.Productions
import SchemaLang.Proofs.Reader.Reads

/-! The readers on what is printed. Each part of a definition is read from its printed words as
the same part, apart from places and from descriptions that are printed as blocks, which may
come out with other lines than they went in. -/

namespace SchemaLang

open Piece

variable {bad bad' : List TokenKind}

/-! ### Names and wrappers -/

theorem IsName.isName_kindOf {s : String} (h : IsName s) :
    (Lexeme.kindOf s.toList).isName = true := by
  obtain ⟨k, hk, hw⟩ := h
  rw [hw.kindOf_eq, hk]

theorem IsName.kindOf_notMem {s : String} (h : IsName s) (hb : ∀ k ∈ bad, k.isName = false) :
    Lexeme.kindOf s.toList ∉ bad := by
  intro hk
  have hname := h.isName_kindOf
  rw [hb _ hk] at hname
  cases hname

@[simp] theorem kindOf_keyword (k : Keyword) : Lexeme.kindOf k.text.toList = .keyword k :=
  (Lexeme.relexes_keyword k).kindOf_eq

theorem Name.plain_eq {m n : Name} (h : m.value = n.value) : m.plain = n.plain := by
  rw [Name.plain, Name.plain, h]

namespace TypeRef

theorem pieces_wrap (r : TypeRef) (w : Wrapper) : (r.wrap w).pieces = w.around r.pieces := by
  simp [pieces, wrap]

theorem plain_wrap (r : TypeRef) (w : Wrapper) : (r.wrap w).plain = r.plain.wrap w := rfl

/-- A reference is a bare name, or something under one more wrapper. -/
theorem wrappers_cases (r : TypeRef) : r.wrappers = [] ∨ ∃ s w, r = wrap s w := by
  rcases List.eq_nil_or_concat r.wrappers with h | ⟨ws, w, h⟩
  · exact .inl h
  · rw [List.concat_eq_append] at h
    exact .inr ⟨{ r with wrappers := ws }, w, by rw [wrap, ← h]⟩

theorem WellFormed.of_wrap {r : TypeRef} {w : Wrapper} (h : (r.wrap w).WellFormed) :
    r.WellFormed ∧ (w = .nonNull → r.wrappers.getLast? ≠ some .nonNull) := by
  have hchain := List.isChain_append.mp h.wrappers
  refine ⟨⟨h.name, hchain.1, h.binding⟩, ?_⟩
  rintro rfl hl
  exact hchain.2.2 _ hl _ rfl rfl rfl

end TypeRef

namespace Reader

variable {α β γ σ : Type} {u v : List (TokenKind × String)}

/-! ### Names and types -/

theorem reads_name {s : String} (h : IsName s) :
    Reads Reader.name [(Lexeme.kindOf s.toList, s)] (·.value = s) bad := by
  refine .take fun t ht => ⟨⟨t.text, t.location⟩, ?_, (Prod.mk.inj ht).2⟩
  rw [if_pos]
  rw [(Prod.mk.inj ht).1, h.isName_kindOf]

theorem reads_typeName {r : TypeRef} (h : r.IsNamed) :
    Reads typeName [(Lexeme.kindOf r.name.toList, r.name)] (·.plain = r.plain) bad := by
  refine (reads_name h.name).last fun m hm => .pure ?_
  simp [TypeRef.plain, TypeRef.named, hm, h.wrappers, h.binding]

/-- A name, or a type in brackets. -/
def bareTypeRef : Reader TypeRef := do
  if ← accept (.mark .lbracket) then do
    let r ← typeRef
    expect (.mark .rbracket)
    return r.wrap .list
  else typeName

theorem typeRef_eq_bareTypeRef : typeRef = (do
    let inner ← bareTypeRef
    if ← accept (.mark .bang) then return inner.wrap .nonNull
    return inner) := by
  rw [bareTypeRef, bind_assoc]
  refine typeRef_eq.trans (bind_congr fun b => ?_)
  cases b with
  | true => simp only [if_true, bind_assoc]
  | false => simp only [Bool.false_eq_true, if_false]

theorem reads_bareTypeRef {r : TypeRef} (h : r.WellFormed)
    (hl : r.wrappers.getLast? ≠ some .nonNull)
    (ih : ∀ s : TypeRef, s.WellFormed → s.wrappers.length < r.wrappers.length →
      Reads typeRef (spellings s.pieces) (·.plain = s.plain) [.mark .bang]) :
    Reads bareTypeRef (spellings r.pieces) (·.plain = r.plain) bad := by
  rcases r.wrappers_cases with hw | ⟨s, w, rfl⟩
  · have hnamed : r.IsNamed := ⟨h.name, hw, h.binding⟩
    have hp : spellings r.pieces = [(Lexeme.kindOf r.name.toList, r.name)] := by
      rw [TypeRef.pieces, hw]
      rfl
    rw [hp]
    refine .accept_false (h.name.kindOf_notMem ?_) (reads_typeName hnamed)
    simp [TokenKind.isName]
  · cases w with
    | nonNull => exact absurd (by simp [TypeRef.wrap]) hl
    | list =>
      have hs := ih s h.of_wrap.1 (by simp [TypeRef.wrap])
      rw [TypeRef.pieces_wrap, Wrapper.around, spellings_append, spellings_append,
        List.append_assoc]
      refine .accept_true (hs.bind (fun a ha => Reads.expect.last fun _ _ => .pure ?_) ?_)
      · rw [TypeRef.plain_wrap, ha, TypeRef.plain_wrap]
      · simp

/-- The type in brackets is shorter; what stands before an exclamation mark has none of its
own. -/
theorem reads_typeRef {r : TypeRef} (h : r.WellFormed) :
    Reads typeRef (spellings r.pieces) (·.plain = r.plain) [.mark .bang] := by
  induction hn : r.wrappers.length using Nat.strongRecOn generalizing r with
  | _ n ih =>
    rw [typeRef_eq_bareTypeRef]
    by_cases hl : r.wrappers.getLast? = some .nonNull
    · rcases r.wrappers_cases with hw | ⟨s, w, rfl⟩
      · simp [hw] at hl
      · obtain rfl : w = .nonNull := by simpa [TypeRef.wrap] using hl
        have hlt : s.wrappers.length < n := by simp [← hn, TypeRef.wrap]
        have hs : Reads bareTypeRef (spellings s.pieces) (·.plain = s.plain) [] :=
          reads_bareTypeRef h.of_wrap.1 (h.of_wrap.2 rfl) fun t ht htlt =>
            ih _ (htlt.trans hlt) ht rfl
        rw [TypeRef.pieces_wrap, Wrapper.around, spellings_append]
        refine hs.seq fun a ha => .accept_true (.pure ?_)
        rw [TypeRef.plain_wrap, ha, TypeRef.plain_wrap]
    · have hr : Reads bareTypeRef (spellings r.pieces) (·.plain = r.plain) [.mark .bang] :=
        reads_bareTypeRef h hl fun s hs hlt => ih _ (hn ▸ hlt) hs rfl
      exact hr.last fun a ha => .accept_false (List.Subset.refl _) (.pure ha)

/-! ### Values -/

theorem reads_scalarValue {x : Value} {s : TokenKind × String}
    (hs : s.1 ∉ [.mark .lbracket, .mark .lbrace])
    (h : ∀ t : Token, t.kind = s.1 → t.text = s.2 → scalarValue? t = some x) :
    Reads Reader.value [s] (· = x) bad := by
  simp only [List.mem_cons, List.not_mem_nil, or_false, not_or] at hs
  rw [value_eq, valueBody]
  refine .accept_false (by simpa using hs.1) (.accept_false (by simpa using hs.2) (.take ?_))
  rintro t rfl
  exact ⟨x, h t rfl rfl, rfl⟩

theorem scalarValue?_of_isName {t : Token} (hn : t.kind.isName = true)
    (hc : t.kind.isConstant = false) : scalarValue? t = some (.enum t.text) := by
  obtain ⟨k, w, l⟩ := t
  cases k with
  | ident => rfl
  | keyword k => cases k <;> first | rfl | cases hc
  | eof | error | int | float | string | blockString | mark _ => cases hn

theorem reads_entry {r : Reader α} {P : α → Prop} {s : String} (hs : IsName s)
    (hr : Reads r u P bad) :
    Reads (entry r) ((Lexeme.kindOf s.toList, s) :: (.mark .colon, Mark.colon.text) :: u)
      (fun e => e.1.value = s ∧ P e.2) bad :=
  (reads_name hs).seq fun _ hn => Reads.expect.seq fun _ _ => hr.last fun _ ha => .pure ⟨hn, ha⟩

theorem leads_value {x : Value} (h : x.WellFormed) :
    Leads [.mark .rbracket] (spellings x.pieces) bad := by
  cases h with
  | int h => simp [Value.pieces, h.kindOf_eq]
  | float h => simp [Value.pieces, h.kindOf_eq]
  | string s => simp [Value.pieces]
  | boolean b => cases b <;> simp [Value.pieces]
  | null => simp [Value.pieces]
  | enum hk hc h =>
    rw [Value.pieces, spellings_word, leads_cons]
    exact IsName.kindOf_notMem ⟨_, hk, h⟩ (by simp [TokenKind.isName])
  | list h => simp [Value.pieces]
  | object hn hv => simp [Value.pieces]

theorem reads_value {x : Value} (h : x.WellFormed) :
    Reads Reader.value (spellings x.pieces) (· = x) bad := by
  induction h generalizing bad with
  | int h =>
    refine reads_scalarValue (by simp [h.kindOf_eq]) fun t hk ht => ?_
    simp [scalarValue?, hk, h.kindOf_eq, ht]
  | float h =>
    refine reads_scalarValue (by simp [h.kindOf_eq]) fun t hk ht => ?_
    simp [scalarValue?, hk, h.kindOf_eq, ht]
  | string s =>
    refine reads_scalarValue (by simp) fun t hk ht => ?_
    simp [scalarValue?, Token.stringValue?, hk, ht, Quoted.read_write]
  | boolean b =>
    cases b with
    | true => exact reads_scalarValue (by simp) fun t hk _ => by simp [scalarValue?, hk]
    | false => exact reads_scalarValue (by simp) fun t hk _ => by simp [scalarValue?, hk]
  | null => exact reads_scalarValue (by simp) fun t hk _ => by simp [scalarValue?, hk]
  | enum hn hc h =>
    refine reads_scalarValue ?_ fun t hk ht => ?_
    · exact IsName.kindOf_notMem ⟨_, hn, h⟩ (by simp [TokenKind.isName])
    · rw [h.kindOf_eq] at hk
      rw [scalarValue?_of_isName (hk ▸ hn) (hk ▸ hc), ht]
  | @list items h ih =>
    have hstep : ∀ front x, front ++ [x] <+: items → ∀ s, s = front →
        Reads (do return s ++ [← Reader.value]) (spellings x.pieces) (· = front ++ [x]) [] := by
      rintro front x hx s rfl
      exact (ih x (hx.subset (by simp))).last fun a ha => .pure (by rw [ha])
    rw [value_eq, valueBody, Value.pieces, Value.itemPieces_eq, spellings_between]
    refine .accept_true (.last (.untilMark hstep (fun x hx => ?_) (by simp) rfl) fun a ha => ?_)
    · exact leads_value (h x hx)
    · exact .pure (by rw [ha])
  | @object entries hn hv ih =>
    have hstep : ∀ front x, front ++ [x] <+: entries → ∀ s, s = front →
        Reads (do
          let e ← entry Reader.value
          return s ++ [(e.1.value, e.2)])
        (spellings ([word x.1, mark .colon, space] ++ x.2.pieces)) (· = front ++ [x]) [] := by
      rintro front x hx s rfl
      have hmem : x ∈ entries := hx.subset (by simp)
      exact (reads_entry (hn x hmem) (ih x hmem)).last fun e he => .pure (by rw [he.1, he.2])
    rw [value_eq, valueBody, Value.pieces, Value.entryPieces_eq, spellings_between]
    refine .accept_false (by simp) (.accept_true
      (.last (.untilMark hstep (fun x hx => ?_) (by simp) rfl) fun a ha => ?_))
    · exact (hn x hx).kindOf_notMem (by simp [TokenKind.isName])
    · exact .pure (by rw [ha])

/-! ### Directives -/

theorem reads_arguments {args : List Argument} (h : ∀ a ∈ args, a.WellFormed) :
    Reads Reader.arguments (spellings (inParentheses (args.map Argument.pieces)))
      (fun as => as.map Argument.plain = args.map Argument.plain) [.mark .lparen] := by
  rw [spellings_inParentheses]
  refine .group
    (I := fun front (as : List Argument) => as.map Argument.plain = front.map Argument.plain)
    (fun front x hx as has => ?_) (fun x hx => ?_) List.not_mem_nil rfl
  · have hx := h x (hx.subset (by simp))
    refine (reads_entry hx.name (reads_value hx.value)).last fun e he => .pure ?_
    simp [has, Argument.plain, he.2, Name.plain_eq he.1]
  · exact (h x hx).name.kindOf_notMem (by simp [TokenKind.isName])

theorem reads_directives {ds : List Directive} (h : ∀ d ∈ ds, d.WellFormed) :
    Reads Reader.directives (spellings (ds.flatMap Directive.pieces))
      (fun es => es.map Directive.plain = ds.map Directive.plain)
      [.mark .atSign, .mark .lparen] := by
  rw [spellings_flatMap]
  refine .whileMark
    (I := fun front (es : List Directive) => es.map Directive.plain = front.map Directive.plain)
    (fun front d hd es hes => ?_) (by simp) rfl
  have hd := h d (hd.subset (by simp))
  refine (reads_name hd.name).seq fun n hn => (reads_arguments hd.arguments).last fun as has => ?_
  exact .pure (by simp [hes, Directive.plain, has, Name.plain_eq hn])

/-- Directives with nothing to read behind them. -/
theorem reads_directives_last {ds : List Directive} (h : ∀ d ∈ ds, d.WellFormed)
    {f : List Directive → α} {P : α → Prop}
    (hf : ∀ es, es.map Directive.plain = ds.map Directive.plain → P (f es))
    (hb : [.mark .atSign, .mark .lparen] ⊆ bad) :
    Reads (do return f (← Reader.directives)) (spellings (ds.flatMap Directive.pieces)) P bad :=
  ((reads_directives h).last fun es hes => .pure (hf es hes)).widen hb

theorem leads_directives (ds : List Directive) (h : .mark .atSign ∉ bad) (hv : Leads bad v bad') :
    Leads bad (spellings (ds.flatMap Directive.pieces) ++ v) bad' := by
  cases ds with
  | nil => exact hv
  | cons d ds => exact h

theorem leads_directives_last (ds : List Directive) (h : .mark .atSign ∉ bad) (hb : bad ⊆ bad') :
    Leads bad (spellings (ds.flatMap Directive.pieces)) bad' := by
  cases ds with
  | nil => exact hb
  | cons d ds => exact h

/-! ### Descriptions -/

/-- A description as it comes out when it is printed and read again. -/
def reread (indent : List Char) (s : String) : String :=
  if s.toList.contains '\n' then String.ofList (Block.read (Block.write indent s.toList)) else s

/-- Words that are read as a description. -/
inductive Describes : List (TokenKind × String) → Option String → Prop
  | none : Describes [] none
  | some {k : TokenKind} {w s : String} (hk : k.isString = true)
    (h : ∀ t : Token, t.kind = k → t.text = w → t.stringValue? = some s) :
    Describes [(k, w)] (some s)

theorem describes_quoted (s : String) :
    Describes [(.string, String.ofList (Quoted.write s.toList))] (some s) :=
  .some rfl fun t hk ht => by simp [Token.stringValue?, hk, ht, Quoted.read_write]

theorem describes_argument (d : Option String) :
    Describes (spellings (d.elim [] fun s => [quoted s, space])) d := by
  cases d with
  | none => exact .none
  | some s => exact describes_quoted s

theorem describes_descriptionPieces (indent : List Char) (d : Option String) :
    Describes (spellings (descriptionPieces indent d)) (d.map (reread indent)) := by
  cases d with
  | none => exact .none
  | some s =>
    rw [Option.map_some, reread, descriptionPieces]
    split
    · exact .some rfl fun t hk ht => by simp [Token.stringValue?, hk, ht]
    · exact describes_quoted s

theorem Describes.leads {d : Option String} (h : Describes u d)
    (hb : ∀ k ∈ bad, k.isString = false) (hv : Leads bad v bad') : Leads bad (u ++ v) bad' := by
  cases h with
  | none => exact hv
  | some hk _ =>
    intro hmem
    have := hb _ hmem
    simp_all

theorem reads_description {d : Option String} (h : Describes u d) :
    Reads Reader.description u (· = d) [.string, .blockString] := by
  intro ts rest hts hrest
  cases h with
  | none =>
    obtain rfl := List.map_eq_nil_iff.mp hts
    exact ⟨none, by rw [run_description, List.nil_append, splitDescription_of_clear hrest], rfl⟩
  | some _ h =>
    obtain ⟨t, ts, rfl, ht, hnil⟩ := List.map_eq_cons_iff.mp hts
    obtain rfl := List.map_eq_nil_iff.mp hnil
    have hs := h t (Prod.mk.inj ht).1 (Prod.mk.inj ht).2
    refine ⟨_, ?_, rfl⟩
    rw [run_description, List.singleton_append, splitDescription_cons hs]

/-! ### Fields and arguments -/

/-- The kinds that could go on behind a field or an argument. -/
def fieldContinuations : List TokenKind :=
  [.mark .bang, .mark .equals, .mark .atSign, .mark .lparen]

/-- No field or argument begins with a closing mark, or with what goes on behind one. -/
theorem not_name_of_mem_fieldContinuations {close : Mark} :
    ∀ k ∈ .mark close :: fieldContinuations, k.isName = false ∧ k.isString = false := by
  simp [fieldContinuations, TokenKind.isName, TokenKind.isString]

theorem leads_name {s : String} (h : IsName s) (hb : ∀ k ∈ bad, k.isName = false) :
    Leads bad ((Lexeme.kindOf s.toList, s) :: v) bad' := h.kindOf_notMem hb

theorem leads_defaultValue (d : Option Value) (h : .mark .equals ∉ bad) (hv : Leads bad v bad') :
    Leads bad (spellings (d.elim [] fun x => [space, mark .equals, space] ++ x.pieces) ++ v)
      bad' := by
  cases d with
  | none => exact hv
  | some x => exact h

theorem reads_inputValue {x : InputValue} (h : x.WellFormed) {f : String → String}
    (hu : Describes u (x.description.map f)) :
    Reads Reader.inputValue (u ++ spellings x.pieces) (·.plain = x.reword f)
      fieldContinuations := by
  simp only [InputValue.pieces, spellings_append, List.append_assoc]
  refine (reads_description hu).bind (fun d hd => (reads_name h.name).seq fun n hn =>
    Reads.expect.seq fun _ _ => (reads_typeRef h.type).bind (fun r hr => ?_) ?_) ?_
  · have hend : ∀ c, c = x.defaultValue →
        Reads (do return (⟨d, n, r, c, ← Reader.directives⟩ : InputValue))
          (spellings (x.directives.flatMap Directive.pieces)) (·.plain = x.reword f)
          fieldContinuations := by
      rintro c rfl
      refine reads_directives_last h.directives (fun ds hds => ?_) (by simp [fieldContinuations])
      simp [InputValue.plain, InputValue.reword, hd, Name.plain_eq hn, hr, hds]
    cases hc : x.defaultValue with
    | none =>
      refine .accept_false (leads_directives_last x.directives ?_ ?_) ?_
      · simp
      · simp [fieldContinuations]
      · exact .seq (u := []) (P := (· = none)) (.pure rfl) fun c hn => hend c (hn.trans hc.symm)
    | some c =>
      have hvalue : Reads (some <$> Reader.value) (spellings c.pieces) (· = some c) [] :=
        (reads_value (h.defaultValue c hc)).map fun y hy => congrArg some hy
      exact .accept_true (hvalue.seq fun y hy => hend y (hy.trans hc.symm))
  · refine leads_defaultValue _ (by simp) (leads_directives_last _ (by simp) ?_)
    simp [fieldContinuations]
  · exact leads_name h.name (by simp [TokenKind.isName])

theorem leads_inputValue {x : InputValue} (h : x.WellFormed) {d : Option String}
    (hu : Describes u d) (hb : ∀ k ∈ bad, k.isName = false ∧ k.isString = false) :
    Leads bad (u ++ spellings x.pieces) bad' := by
  refine hu.leads (fun k hk => (hb k hk).2) ?_
  simp only [InputValue.pieces, spellings_append, List.append_assoc]
  exact leads_name h.name fun k hk => (hb k hk).1

/-- Where names are distinct, the next one has not been there before. -/
theorem key_notMem_front {xs front : List β} {x : β} {key : β → String} (h : (xs.map key).Nodup)
    (hp : front ++ [x] <+: xs) : key x ∉ front.map key := by
  have hnodup := h.sublist (hp.map key).sublist
  rw [List.map_append, List.nodup_append] at hnodup
  exact fun hx => hnodup.2.2 _ hx _ (by simp) rfl

/-- What has not been there before is not found among items that are the same but for places. -/
theorem not_any_of_map_eq {as front : List β} {f : β → β} {k : String} (key : β → String)
    (has : as.map f = front.map f) (hkey : ∀ b, key (f b) = key b) (hk : k ∉ front.map key) :
    ¬ as.any (fun a => key a == k) = true := by
  have hnames : as.map key = front.map key := by
    have h := congrArg (List.map key) has
    simpa only [List.map_map, Function.comp_def, hkey] using h
  rw [← hnames] at hk
  simpa using hk

theorem reads_addArgument {as front : List InputValue} {a x : InputValue}
    (has : as.map InputValue.plain = front.map InputValue.plain) (ha : a.plain = x.plain)
    (hx : x.name.value ∉ front.map (·.name.value)) :
    Reads (addArgument as a) []
      (fun as => as.map InputValue.plain = (front ++ [x]).map InputValue.plain) bad := by
  have hname : a.name.value = x.name.value := (congrArg (·.name.value) ha :)
  have hnew := not_any_of_map_eq (fun v => v.name.value) has (fun _ => rfl) hx
  rw [← hname] at hnew
  rw [addArgument, if_neg hnew]
  exact .pure (by simp [has, ha])

theorem reads_addInterface {ss front : List TypeRef} {s r : TypeRef}
    (hss : ss.map TypeRef.plain = front.map TypeRef.plain) (hs : s.plain = r.plain)
    (hr : r.name ∉ front.map (·.name)) :
    Reads (addInterface ss s) []
      (fun ss => ss.map TypeRef.plain = (front ++ [r]).map TypeRef.plain) bad := by
  have hname : s.name = r.name := (congrArg (·.name) hs :)
  have hnew := not_any_of_map_eq TypeRef.name hss (fun _ => rfl) hr
  rw [← hname] at hnew
  rw [addInterface, if_neg hnew]
  exact .pure (by simp [hss, hs])

theorem reads_argumentDefinitions {args : List InputValue} (h : InputValue.AreArguments args) :
    Reads Reader.argumentDefinitions
      (spellings (inParentheses (args.map InputValue.argumentPieces)))
      (fun as => as.map InputValue.plain = args.map InputValue.plain) [.mark .lparen] := by
  have hclose : .mark .rparen ∉ fieldContinuations := by decide
  rw [spellings_inParentheses]
  refine .group
    (I := fun front (as : List InputValue) => as.map InputValue.plain = front.map InputValue.plain)
    (fun front x hx as has => ?_) (fun x hx => ?_) hclose rfl
  · rw [InputValue.argumentPieces, spellings_append]
    have hd : Describes (spellings (x.description.elim [] fun d => [quoted d, space]))
        (x.description.map id) := by
      rw [Option.map_id]
      exact describes_argument x.description
    refine (reads_inputValue (h.wellFormed x (hx.subset (by simp))) hd).last fun a ha => ?_
    exact reads_addArgument has ha (key_notMem_front h.distinct hx)
  · rw [InputValue.argumentPieces, spellings_append]
    exact leads_inputValue (h.wellFormed x hx) (describes_argument _)
      not_name_of_mem_fieldContinuations

theorem reads_field {x : Field} (h : x.WellFormed) (indent : List Char) :
    Reads Reader.field (spellings (x.linePieces indent))
      (·.reword id = x.reword (reread indent)) fieldContinuations := by
  have hspell : spellings (x.linePieces indent) =
      spellings (descriptionPieces indent x.description) ++
        (Lexeme.kindOf x.name.value.toList, x.name.value) ::
          (spellings (inParentheses (x.arguments.map InputValue.argumentPieces)) ++
            (.mark .colon, Mark.colon.text) ::
              (spellings x.type.pieces ++ spellings (x.directives.flatMap Directive.pieces))) := by
    simp [Field.linePieces]
  rw [hspell]
  refine (reads_description (describes_descriptionPieces indent _)).bind (fun d hd =>
    (reads_name h.name).seq fun n hn => (reads_argumentDefinitions h.arguments).bind
      (fun as has => Reads.expect.seq fun _ _ => (reads_typeRef h.type).bind (fun r hr =>
        reads_directives_last h.directives (fun ds hds => ?_) ?_) ?_) ?_) ?_
  · simp [Field.reword, hd, Name.plain_eq hn, has, hr, hds]
  · simp [fieldContinuations]
  · exact leads_directives_last _ (by simp) (by simp [fieldContinuations])
  · simp
  · exact leads_name h.name (by simp [TokenKind.isName])

theorem leads_field {x : Field} (h : x.WellFormed) (indent : List Char)
    (hb : ∀ k ∈ bad, k.isName = false ∧ k.isString = false) :
    Leads bad (spellings (x.linePieces indent)) bad' := by
  simp only [Field.linePieces, spellings_append, List.append_assoc]
  exact (describes_descriptionPieces indent _).leads (fun k hk => (hb k hk).2)
    (leads_name h.name fun k hk => (hb k hk).1)

/-! ### Tables -/

theorem reads_addOnce {table : Table α} {m : Name} {item : α} {g : α → γ}
    {es : List (String × γ)} (ht : (table.map g).entries = es) (hm : m.value ∉ es.map Prod.fst) :
    Reads (addOnce table m item) []
      (fun t => (t.map g).entries = es ++ [(m.value, g item)]) bad := by
  have hkeys : m.value ∉ table.keys := by
    rw [← ht] at hm
    rwa [← Table.keys_map g]
  have hnew : ¬ table.contains m.value = true := by simpa [Table.contains] using hkeys
  rw [addOnce, if_neg hnew]
  refine .pure ?_
  rw [← ht, Table.entries_map, Table.entries_insert_of_not_mem hkeys, List.map_append]
  rfl

/-- A table in braces, each item under its name. -/
theorem reads_table {read : Reader α} {name : α → Name} {key : β → String} {g : α → γ}
    {h : β → γ} {spell : β → List Piece} {t : Table β} (hk : t.KeyedBy key)
    (hname : ∀ a x, g a = h x → (name a).value = key x)
    (hread : ∀ x ∈ t.values, Reads read (spellings (spell x)) (fun a => g a = h x) bad)
    (hspell : ∀ x ∈ t.values, Leads (.mark .rbrace :: bad) (spellings (spell x)) [])
    (hb : .mark .rbrace ∉ bad) :
    Reads (do
      if ← accept (.mark .lbrace) then
        untilMark .rbrace (fun table => do
          let a ← read
          addOnce table (name a) a) ∅
      else return ∅)
      (spellings (inBracesIfAny (t.values.map spell))) (fun u => u.map g = t.map h)
      [.mark .lbrace] := by
  rw [spellings_inBracesIfAny]
  -- The items read so far, under their names, are the entries of the table read so far.
  refine (Reads.group
    (I := fun front (u : Table α) => (u.map g).entries = front.map fun x => (key x, h x))
    (fun front x hx u hu => (hread x (hx.subset (by simp))).last fun a ha => ?_) hspell hb rfl).imp
      fun u hu => Table.ext (hu.trans (hk.entries_map h).symm)
  have hnew : (name a).value ∉ (front.map fun x => (key x, h x)).map Prod.fst := by
    rw [hname a x ha, List.map_map]
    exact key_notMem_front hk.nodup hx
  exact (reads_addOnce hu hnew).imp fun u' hu' => by simp [hu', hname a x ha, ha]

theorem reads_fields {t : Table Field} (hk : t.KeyedBy (·.name.value))
    (h : ∀ x ∈ t.values, x.WellFormed) (indent : List Char) :
    Reads Reader.fields (spellings (inBracesIfAny (t.values.map (Field.linePieces indent))))
      (fun u => u.map (Field.reword id) = t.map (Field.reword (reread indent)))
      [.mark .lbrace] := by
  have hclose : .mark .rbrace ∉ fieldContinuations := by decide
  refine reads_table hk (fun a x ha => ?_) (fun x hx => ?_) (fun x hx => ?_) hclose
  · exact (congrArg (·.name.value) ha :)
  · exact reads_field (h x hx) indent
  · exact leads_field (h x hx) indent not_name_of_mem_fieldContinuations

theorem reads_inputFields {t : Table InputValue} (hk : t.KeyedBy (·.name.value))
    (h : ∀ x ∈ t.values, x.WellFormed) (indent : List Char) :
    Reads Reader.inputFields
      (spellings (inBracesIfAny (t.values.map (InputValue.linePieces indent))))
      (fun u => u.map (InputValue.reword id) = t.map (InputValue.reword (reread indent)))
      [.mark .lbrace] := by
  have hspell (x : InputValue) : spellings (x.linePieces indent) =
      spellings (descriptionPieces indent x.description) ++ spellings x.pieces := by
    simp only [InputValue.linePieces, spellings_append, spellings_layout, spellings_newline,
      spellings_nil, List.append_nil]
  have hclose : .mark .rbrace ∉ fieldContinuations := by decide
  refine reads_table hk (fun a x ha => ?_) (fun x hx => ?_) (fun x hx => ?_) hclose
  · exact (congrArg (·.name.value) ha :)
  · rw [hspell]
    exact reads_inputValue (h x hx) (describes_descriptionPieces indent _)
  · rw [hspell]
    exact leads_inputValue (h x hx) (describes_descriptionPieces indent _)
      not_name_of_mem_fieldContinuations

end Reader

end SchemaLang
