import SchemaLang.Proofs.Reader.Printed

/-! The readers on printed statements. A statement may have parts that are printed away, such as
empty braces; what comes behind it is then no token by which it could go on. -/

namespace SchemaLang.Reader

open Piece

variable {bad bad' : List TokenKind}

/-! ### Types -/

theorem reads_interfaces {rs : List TypeRef} (h : TypeRef.AreInterfaces rs) :
    Reads Reader.interfaces (spellings (interfacePieces rs))
      (fun ss => ss.map TypeRef.plain = rs.map TypeRef.plain)
      [.keyword .implements, .mark .amp] := by
  cases rs with
  | nil => exact .accept_false (by simp [interfacePieces]) (.pure rfl)
  | cons r rs =>
    have hspell : spellings (interfacePieces (r :: rs)) =
        (.keyword .implements, Keyword.implements.text) :: (Lexeme.kindOf r.name.toList, r.name) ::
          rs.flatMap fun s => (.mark .amp, Mark.amp.text) ::
            [(Lexeme.kindOf s.name.toList, s.name)] := by
      rw [interfacePieces, List.isEmpty_cons, if_neg (by simp), spellings_append,
        spellings_separate_mark]
      simp
    have hr := h.named r List.mem_cons_self
    have hothers : ∀ s : TypeRef, s.plain = r.plain → Reads (do
          let first ← addInterface [] s
          whileMark .amp (fun others => do addInterface others (← typeName)) first)
        (rs.flatMap fun t => (.mark .amp, Mark.amp.text) :: [(Lexeme.kindOf t.name.toList, t.name)])
        (fun ss => ss.map TypeRef.plain = (r :: rs).map TypeRef.plain) [.mark .amp] := by
      intro s hs
      refine .seq (u := []) (reads_addInterface rfl hs (by simp)) fun first hfirst => ?_
      refine .whileMark
        (I := fun front (ss : List TypeRef) =>
          ss.map TypeRef.plain = (r :: front).map TypeRef.plain)
        (fun front t ht ss hss => ?_) List.not_mem_nil hfirst
      have hnamed := h.named t (List.mem_cons_of_mem r (ht.subset (by simp)))
      have hfront : r :: front ++ [t] <+: r :: rs := List.prefix_cons_inj r |>.mpr ht
      exact (reads_typeName hnamed).last fun a ha =>
        reads_addInterface hss ha (key_notMem_front h.distinct hfront)
    rw [hspell]
    refine .accept_true (.accept_false (leads_name hr.name (by simp [TokenKind.isName])) ?_)
    exact ((reads_typeName hr).seq hothers).widen (by simp)

theorem leads_inBracesIfAny (ls : List (List Piece)) (h : .mark .lbrace ∉ bad) (hb : bad ⊆ bad') :
    Leads bad (spellings (inBracesIfAny ls)) bad' := by
  cases ls with
  | nil => exact hb
  | cons l ls => exact h

theorem leads_memberPieces (rs : List TypeRef) (h : .mark .equals ∉ bad) (hb : bad ⊆ bad') :
    Leads bad (spellings (memberPieces rs)) bad' := by
  cases rs with
  | nil => exact hb
  | cons r rs => exact h

theorem reads_fieldSet {b : FieldSet} (h : b.WellFormed) {ds : List Directive}
    (hds : ∀ d ∈ ds, d.WellFormed) (indent : List Char) :
    Reads Reader.fieldSet
      (spellings (interfacePieces b.interfaces) ++ (spellings (ds.flatMap Directive.pieces) ++
        spellings (inBracesIfAny (b.fields.values.map (Field.linePieces indent)))))
      (fun p => p.1.map Directive.plain = ds.map Directive.plain ∧
        p.2.reword id = b.reword (reread indent)) continuations := by
  refine (reads_interfaces h.interfaces).bind (fun ss hss => (reads_directives hds).bind
    (fun es hes => ((reads_fields h.keyed h.fields indent).last fun t ht => .pure ?_).widen
      ?_) ?_) ?_
  · exact ⟨hes, by simp [FieldSet.reword, hss, ht]⟩
  · simp [continuations]
  · exact leads_inBracesIfAny _ (by simp) (by simp [continuations])
  · refine leads_directives _ (by simp) (leads_inBracesIfAny _ (by simp) ?_)
    simp [continuations]

theorem reads_members {rs : List TypeRef} (h : ∀ r ∈ rs, r.IsNamed) :
    Reads Reader.members (spellings (memberPieces rs))
      (fun ss => ss.map TypeRef.plain = rs.map TypeRef.plain) [.mark .equals, .mark .pipe] := by
  cases rs with
  | nil => exact .accept_false (by simp [memberPieces]) (.pure rfl)
  | cons r rs =>
    have hr := h r List.mem_cons_self
    rw [memberPieces, List.isEmpty_cons, if_neg (by simp), spellings_append,
      spellings_separate_mark]
    refine .accept_true (.accept_false (leads_name hr.name (by simp [TokenKind.isName])) ?_)
    exact (Reads.separated (fun s hs => reads_typeName (h s hs)) List.not_mem_nil).widen (by simp)

theorem reads_enumValueName {n : Name}
    (h : ∃ k, k.isName = true ∧ k.isConstant = false ∧ Lexeme.Relexes k n.value.toList) :
    Reads enumValueName [(Lexeme.kindOf n.value.toList, n.value)] (·.value = n.value) bad := by
  obtain ⟨k, hk, hc, hw⟩ := h
  intro ts rest hts hrest
  obtain ⟨t, ts, rfl, ht, hnil⟩ := List.map_eq_cons_iff.mp hts
  have hkind : t.kind.isConstant = false := by rw [(Prod.mk.inj ht).1, hw.kindOf_eq, hc]
  rw [enumValueName, run_look_bind, if_neg (by simp [hkind])]
  exact reads_name ⟨k, hk, hw⟩ _ rest hts hrest

theorem reads_enumValue {x : EnumValue} (h : x.WellFormed) (indent : List Char) :
    Reads Reader.enumValue (spellings (x.linePieces indent))
      (·.reword id = x.reword (reread indent)) [.mark .atSign, .mark .lparen] := by
  have hspell : spellings (x.linePieces indent) =
      spellings (descriptionPieces indent x.description) ++
        (Lexeme.kindOf x.name.value.toList, x.name.value) ::
          spellings (x.directives.flatMap Directive.pieces) := by
    simp [EnumValue.linePieces]
  obtain ⟨k, hk, -, hw⟩ := h.name
  rw [hspell]
  refine (reads_description (describes_descriptionPieces indent _)).bind (fun d hd =>
    (reads_enumValueName h.name).seq fun n hn =>
      reads_directives_last h.directives (fun ds hds => ?_) (by simp)) ?_
  · simp [EnumValue.reword, hd, Name.plain_eq hn, hds]
  · exact leads_name ⟨k, hk, hw⟩ (by simp [TokenKind.isName])

theorem reads_enumValues {xs : List EnumValue} (h : ∀ x ∈ xs, x.WellFormed)
    (indent : List Char) :
    Reads Reader.enumValues (spellings (inBracesIfAny (xs.map (EnumValue.linePieces indent))))
      (fun ys => ys.map (EnumValue.reword id) = xs.map (EnumValue.reword (reread indent)))
      [.mark .lbrace] := by
  have hclose : TokenKind.mark .rbrace ∉ [.mark .atSign, .mark .lparen] := by decide
  rw [spellings_inBracesIfAny]
  refine .group
    (I := fun front (ys : List EnumValue) =>
      ys.map (EnumValue.reword id) = front.map (EnumValue.reword (reread indent)))
    (fun front x hx ys hys => ?_) (fun x hx => ?_) hclose rfl
  · exact .append (reads_enumValue (h x (hx.subset (by simp))) indent) hys
  · obtain ⟨k, hk, -, hw⟩ := (h x hx).name
    simp only [EnumValue.linePieces, spellings_append, List.append_assoc]
    exact (describes_descriptionPieces indent _).leads (by simp [TokenKind.isString])
      (leads_name ⟨k, hk, hw⟩ (by simp [TokenKind.isName]))

/-- Directives, and a body behind them that may be printed away. -/
theorem reads_directives_then {α : Type} {r : Reader α} {f : α → TypeBody} {b : TypeBody}
    {g : String → String} {u : List (TokenKind × String)} {ds : List Directive}
    (hds : ∀ d ∈ ds, d.WellFormed) (hr : Reads r u (fun a => (f a).reword id = b.reword g) bad)
    (hb : bad ⊆ continuations)
    (hu : Leads [.mark .atSign, .mark .lparen] u continuations) :
    Reads (do return (← Reader.directives, f (← r)))
      (spellings (ds.flatMap Directive.pieces) ++ u)
      (fun p => p.1.map Directive.plain = ds.map Directive.plain ∧ p.2.reword id = b.reword g)
      continuations :=
  (reads_directives hds).bind
    (fun _ hes => (hr.last fun _ ha => .pure ⟨hes, ha⟩).widen hb) hu

/-- What a type definition says behind its name. -/
theorem reads_typeBody {b : TypeBody} (h : b.WellFormed) {ds : List Directive}
    (hds : ∀ d ∈ ds, d.WellFormed) (indent : List Char) :
    Reads (Reader.typeBody b.kind)
      (spellings (b.pieces indent).1 ++ (spellings (ds.flatMap Directive.pieces) ++
        spellings (b.pieces indent).2))
      (fun p => p.1.map Directive.plain = ds.map Directive.plain ∧
        p.2.reword id = b.reword (reread indent)) continuations := by
  cases b with
  | scalar =>
    simp only [TypeBody.pieces, spellings_nil, List.nil_append, List.append_nil]
    exact reads_directives_last hds (fun es hes => ⟨hes, rfl⟩) (by simp [continuations])
  | object b =>
    refine (reads_fieldSet h hds indent).last fun p hp => .pure ⟨hp.1, ?_⟩
    exact congrArg TypeBody.object hp.2
  | interface b =>
    refine (reads_fieldSet h hds indent).last fun p hp => .pure ⟨hp.1, ?_⟩
    exact congrArg TypeBody.interface hp.2
  | union rs =>
    refine reads_directives_then hds ((reads_members h).imp fun ss hss => ?_) ?_ ?_
    · exact congrArg TypeBody.union hss
    · simp [continuations]
    · exact leads_memberPieces _ (by simp) (by simp [continuations])
  | enum vs =>
    refine reads_directives_then hds ((reads_enumValues h indent).imp fun ws hws => ?_) ?_ ?_
    · exact congrArg TypeBody.enum hws
    · simp [continuations]
    · exact leads_inBracesIfAny _ (by simp) (by simp [continuations])
  | input fs =>
    refine reads_directives_then hds ((reads_inputFields h.1 h.2 indent).imp fun t ht => ?_) ?_ ?_
    · exact congrArg TypeBody.input ht
    · simp [continuations]
    · exact leads_inBracesIfAny _ (by simp) (by simp [continuations])

/-- How descriptions come out when they are printed and read again. -/
def rereading (o : PrintOptions) : Rewording := ⟨reread [], reread o.indent⟩

theorem reads_typeDefinition {t : TypeDefinition} (h : t.WellFormed) {o : PrintOptions}
    {d : Option String} (hd : d = t.description.map (reread [])) :
    Reads (typeDefinition d t.kind)
      ((Lexeme.kindOf t.name.value.toList, t.name.value) :: (spellings (t.body.pieces o.indent).1 ++
        (spellings (t.directives.flatMap Directive.pieces) ++
          spellings (t.body.pieces o.indent).2)))
      (·.reword .none = t.reword (rereading o)) continuations := by
  refine (reads_name h.name).seq fun n hn =>
    (reads_typeBody h.body h.directives o.indent).last fun p hp => .pure ?_
  simp [TypeDefinition.reword, Rewording.none, rereading, hd, Name.plain_eq hn, hp.1, hp.2]

/-! ### Other definitions -/

/-- The keyword for a kind of requests. -/
def operationKeyword : OperationKind → Keyword
  | .query => .query
  | .mutation => .mutation
  | .subscription => .subscription

theorem kindOf_operationKind (k : OperationKind) :
    Lexeme.kindOf k.text.toList = .keyword (operationKeyword k) := by
  cases k with
  | query => exact kindOf_keyword .query
  | mutation => exact kindOf_keyword .mutation
  | subscription => exact kindOf_keyword .subscription

theorem reads_rootOperation {op : RootOperation} (h : op.type.IsNamed) (indent : List Char) :
    Reads Reader.rootOperation (spellings (op.linePieces indent)) (·.plain = op.plain) bad := by
  have hkind : Reads operationKind [(Lexeme.kindOf op.kind.text.toList, op.kind.text)]
      (· = op.kind) [] := by
    refine .take fun t ht => ⟨op.kind, ?_, rfl⟩
    have hk := (Prod.mk.inj ht).1.trans (kindOf_operationKind op.kind)
    rw [hk]
    cases op.kind <;> rfl
  have hspell : spellings (op.linePieces indent) =
      (Lexeme.kindOf op.kind.text.toList, op.kind.text) :: (.mark .colon, Mark.colon.text) ::
        [(Lexeme.kindOf op.type.name.toList, op.type.name)] := by
    simp [RootOperation.linePieces]
  rw [hspell]
  refine hkind.seq fun k hk => Reads.expect.seq fun _ _ => (reads_typeName h).last fun r hr => ?_
  exact .pure (by rw [RootOperation.plain, RootOperation.plain, hk, hr])

theorem leads_rootOperation (op : RootOperation) (indent : List Char) :
    Leads [.mark .rbrace] (spellings (op.linePieces indent)) bad := by
  simp [RootOperation.linePieces, kindOf_operationKind]

theorem reads_rootOperations {ops : List RootOperation} (h : ∀ op ∈ ops, op.type.IsNamed)
    (indent : List Char) :
    Reads (do
      expect (.mark .lbrace)
      untilMark .rbrace (fun ops => do return ops ++ [← Reader.rootOperation]) [])
      (spellings (inBraces (ops.map (RootOperation.linePieces indent))))
      (fun ps => ps.map RootOperation.plain = ops.map RootOperation.plain) bad := by
  rw [spellings_inBraces]
  refine Reads.expect.seq fun _ _ => .untilMark
    (I := fun front (ps : List RootOperation) =>
      ps.map RootOperation.plain = front.map RootOperation.plain)
    (fun front op hop ps hps => ?_) (fun op _ => ?_) List.not_mem_nil rfl
  · exact .append (reads_rootOperation (h op (hop.subset (by simp))) indent) hps
  · exact leads_rootOperation op indent

theorem reads_schema {x : Schema} (h : x.WellFormed) {o : PrintOptions} {d : Option String}
    (hd : d = x.description.map (reread [])) :
    Reads (Reader.schema d)
      (spellings (x.directives.flatMap Directive.pieces) ++
        spellings (inBraces (x.operations.map (RootOperation.linePieces o.indent))))
      (·.reword .none = x.reword (rereading o)) continuations := by
  refine (reads_directives h.directives).bind (fun ds hds => ?_) (by simp [inBraces])
  rw [← bind_assoc]
  refine (reads_rootOperations h.operations o.indent).last fun ops hops => .pure ?_
  simp [Schema.reword, Rewording.none, rereading, hd, hds, hops]

theorem reads_directiveLocation (l : DirectiveLocation) :
    Reads directiveLocation (spellings [word l.text]) (id · = l) bad := by
  intro ts rest hts _
  obtain ⟨t, ts, rfl, ht, hnil⟩ := List.map_eq_cons_iff.mp hts
  obtain rfl := List.map_eq_nil_iff.mp hnil
  have hk : t.kind = .ident := (Prod.mk.inj ht).1.trans (Lexeme.relexes_location l).kindOf_eq
  have hl : DirectiveLocation.ofText? t.text = some l := by
    rw [(Prod.mk.inj ht).2, DirectiveLocation.ofText?_text]
  refine ⟨l, ?_, rfl⟩
  rw [directiveLocation, run_look_bind]
  simp only [List.singleton_append, List.head?_cons, hk, if_true, hl]
  rw [run_skip_bind, run_pure, List.tail_cons]

theorem reads_locations {ls : List DirectiveLocation} (h : ls ≠ []) :
    Reads (do
      let _ ← accept (.mark .pipe)
      separated .pipe directiveLocation)
      (spellings (separate [space, mark .pipe, space] (ls.map fun l => [word l.text]))) (· = ls)
      [.mark .pipe] := by
  obtain ⟨l, ls, rfl⟩ := List.exists_cons_of_ne_nil h
  have hl : Lexeme.kindOf l.text.toList = .ident := (Lexeme.relexes_location l).kindOf_eq
  rw [spellings_separate_mark]
  refine .accept_false (by simp [hl]) ((Reads.separated (g := id) (h := id)
    (fun m _ => reads_directiveLocation m) List.not_mem_nil).imp fun ms hms => ?_)
  simpa using hms

theorem reads_directiveDefinition {x : DirectiveDefinition} (h : x.WellFormed) {o : PrintOptions}
    {d : Option String} (hd : d = x.description.map (reread [])) :
    Reads (Reader.directiveDefinition d)
      ((.mark .atSign, Mark.atSign.text) :: (Lexeme.kindOf x.name.value.toList, x.name.value) ::
        (spellings (inParentheses (x.arguments.map InputValue.argumentPieces)) ++
          (spellings (if x.repeatable then [space, word Keyword.repeatable.text] else []) ++
            (.keyword .on, Keyword.on.text) ::
              spellings (separate [space, mark .pipe, space]
                (x.locations.map fun l => [word l.text])))))
      (·.reword .none = x.reword (rereading o)) [.mark .pipe] := by
  refine Reads.expect.seq fun _ _ => (reads_name h.name).seq fun n hn =>
    (reads_argumentDefinitions h.arguments).bind (fun as has => ?_) ?_
  · have hend : ∀ b, b = x.repeatable → Reads (do
          expect (.keyword .on)
          let _ ← accept (.mark .pipe)
          let ls ← separated .pipe directiveLocation
          return (⟨d, n, as, b, ls⟩ : DirectiveDefinition))
        ((.keyword .on, Keyword.on.text) :: spellings (separate [space, mark .pipe, space]
          (x.locations.map fun l => [word l.text])))
        (·.reword .none = x.reword (rereading o)) [.mark .pipe] := by
      rintro b rfl
      refine Reads.expect.seq fun _ _ => ?_
      rw [← bind_assoc]
      refine (reads_locations h.locations).last fun ls hls => .pure ?_
      simp [DirectiveDefinition.reword, Rewording.none, rereading, hd, Name.plain_eq hn, has, hls]
    cases hb : x.repeatable with
    | true =>
      rw [if_pos rfl, spellings_space, spellings_word, spellings_nil, kindOf_keyword]
      exact .accept_true (hend true hb.symm)
    | false => exact .accept_false (by simp) (hend false hb.symm)
  · cases x.repeatable <;> simp

end SchemaLang.Reader
