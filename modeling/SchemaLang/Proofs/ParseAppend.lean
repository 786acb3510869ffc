import SchemaLang.Proofs.Document.Append
import SchemaLang.Proofs.Document.Unbound
import SchemaLang.Proofs.Reader.Carries
import SchemaLang.Proofs.Words

/-! Reading two texts on lines of their own. If the first one is read without complaint, and the
second one begins like a statement, then what is read are the definitions of the first, and behind
them those of the second, at the places to which they were moved. -/

namespace SchemaLang

open Grammar Reader

/-- What begins like a document begins like a statement. -/
theorem fresh_of_document {ts : List Token} (h : ts ∈ Grammar.document) : Fresh ts := by
  intro t ht
  obtain ⟨us, rfl⟩ : ∃ us, ts = t :: us := by
    cases ts with
    | nil => cases ht
    | cons u us => exact ⟨us, by cases ht; rfl⟩
  obtain ⟨u, rest, k, hsplit, hk, -⟩ := Grammar.split_of_mem_document h (List.cons_ne_nil t us)
  cases hs : t.stringValue? with
  | some s => exact .inl (stringValue?_isSome.mp (by simp [hs]))
  | none =>
    rw [splitDescription, hs] at hsplit
    obtain ⟨rfl, -⟩ := List.cons.inj hsplit
    exact .inr (by simp [TokenKind.startsStatement, hk])

/-! ### Rounds at other places -/

section Place

variable (f : Location → Location)

/-- The round at another place. -/
def Item.place : Item → Item
  | defined d ds => defined (d.relabel (.moving f)) (ds.map (Diagnostic.place f))
  | givenUp ds => givenUp (ds.map (Diagnostic.place f))
  | stopped d => stopped (d.place f)

theorem openBraces_place (depth : Nat) (ts : List Token) :
    openBraces depth (ts.map (Token.place f)) = openBraces depth ts := by
  rw [openBraces, List.foldl_map]
  rfl

theorem skipStatement_place (depth : Nat) (ts : List Token) :
    skipStatement depth (ts.map (Token.place f)) =
      (skipStatement depth ts).map (Token.place f) := by
  induction ts generalizing depth with
  | nil => rfl
  | cons t ts ih =>
    have hkind : (t.place f).kind = t.kind := rfl
    rw [List.map_cons, skipStatement, skipStatement, hkind]
    split
    next => rfl
    next =>
      split
      next => exact ih _
      next =>
        split
        next => rfl
        next => exact ih _
      next => exact ih _

theorem resume_place (ts rest : List Token) :
    resume (ts.map (Token.place f)) (rest.map (Token.place f)) =
      (resume ts rest).map (Token.place f) := by
  rw [resume, List.length_map, List.length_map, ← List.map_take, openBraces_place,
    skipStatement_place, resume]

theorem nextLocation_place (stop : Token) (ts : List Token) :
    nextLocation (stop.place f) (ts.map (Token.place f)) = f (nextLocation stop ts) := by
  cases ts <;> rfl

theorem stuckDiagnostics_place (stop : Token) (fault : Fault) (found : Diagnostics)
    (rest : List Token) :
    stuckDiagnostics (stop.place f) fault (found.map (Diagnostic.place f))
        (rest.map (Token.place f)) =
      (stuckDiagnostics stop fault found rest).map (Diagnostic.place f) := by
  rw [stuckDiagnostics, nextLocation_place, stuckDiagnostics, List.map_append]
  rfl

variable {f}

/-- What is read of tokens at other places is the same, at the other places, and more tokens are
read behind them. If something was found wrong this is said only for nothing more. -/
theorem items_carry {stop stop' : Token} {ts more : List Token} (hmore : Fresh more)
    (h : ∀ i ∈ items stop ts, i.found ≠ [] → more = [] ∧ stop' = stop.place f) :
    items stop' (ts.map (Token.place f) ++ more) =
      (items stop ts).map (Item.place f) ++ items stop' more := by
  have hsplit := fun (ts : List Token) (hne : ts ≠ []) => splitDescription_place f hne more
  have hnext : ∀ {ts t rest}, (splitDescription ts).2 = t :: rest →
      (splitDescription (ts.map (Token.place f) ++ more)).2 =
        t.place f :: (rest.map (Token.place f) ++ more) := by
    intro ts t rest hd
    rw [hsplit ts (ne_nil_of_splitDescription hd), hd]
    rfl
  induction ts using items_induction with
  | nil => rw [List.map_nil, List.nil_append, items_nil, List.map_nil, List.nil_append]
  | ended ts hne hd =>
    rw [items_of_end hne hd] at h ⊢
    obtain ⟨rfl, rfl⟩ := h _ List.mem_cons_self (List.cons_ne_nil _ _)
    rw [items_of_end (by simp [hne]) (by rw [hsplit ts hne, hd]; rfl), items_nil]
    rfl
  | other ts t rest hd hk =>
    rw [items_of_other hd hk] at h ⊢
    obtain ⟨rfl, rfl⟩ := h _ List.mem_cons_self (List.cons_ne_nil _ _)
    rw [items_of_other (hnext hd) hk, items_nil]
    rfl
  | done ts t rest k d ds rest' hd hk hrun ih =>
    have hcarry := carries_definition f more (splitDescription ts).1 k rest
    rw [hrun] at hcarry
    rw [items_of_done hd hk hrun] at h ⊢
    rw [items_of_done (k := k) (hnext hd) hk (by
        rw [hsplit ts (ne_nil_of_splitDescription hd)]
        exact hcarry fun _ => hmore),
      ih fun i hi => h i (List.mem_cons_of_mem _ hi)]
    rfl
  | stuck ts t rest k fault ds rest' hd hk hrun ih =>
    have hcarry := carries_definition f more (splitDescription ts).1 k rest
    rw [hrun] at hcarry
    rw [items_of_stuck hd hk hrun] at h ⊢
    obtain ⟨rfl, rfl⟩ := h _ List.mem_cons_self (by simp [Item.found, stuckDiagnostics])
    have hrest := ih fun i hi => h i (List.mem_cons_of_mem _ hi)
    rw [List.append_nil, ← resume_place f (t :: rest) rest'] at hrest
    rw [items_of_stuck (k := k) (hnext hd) hk (by
        rw [hsplit ts (ne_nil_of_splitDescription hd)]
        exact hcarry fun _ => rfl),
      List.append_nil, List.append_nil, stuckDiagnostics_place]
    exact congrArg _ hrest

/-- What is read of tokens at other places is the same, at the other places. -/
theorem items_place (f : Location → Location) (stop : Token) (ts : List Token) :
    items (stop.place f) (ts.map (Token.place f)) = (items stop ts).map (Item.place f) := by
  have hmoved := @items_carry f stop (stop.place f) ts [] Fresh.nil fun _ _ _ => ⟨rfl, rfl⟩
  rwa [List.append_nil, items_nil, List.append_nil] at hmoved

end Place

/-! ### Nothing moved -/

theorem InputValue.relabel_moving_id (v : InputValue) : v.relabel (.moving id) id = v :=
  ext_type (v.relabel_relabel id id) rfl

theorem TypeDefinition.relabel_moving_id (t : TypeDefinition) : t.relabel (.moving id) = t := by
  refine ext_ref? t.relabel_relabel fun p => ?_
  rw [ref?_relabel]
  exact Option.map_id_apply

theorem Definition.relabel_moving_id (d : Definition) : d.relabel (.moving id) = d := by
  have hds : ∀ ds : List Directive, ds.map (Directive.relabel (.moving id)) = ds :=
    Directive.relabel_unbind_list
  have hops : RootOperation.relabel (.moving id) = id := rfl
  cases d with
  | schema s =>
    change schema ⟨s.description.map id, _, _⟩ = _
    rw [Option.map_id, hds, hops, List.map_id]
    rfl
  | directive v =>
    change directive ⟨v.description.map id, _, _, _, _⟩ = _
    rw [Option.map_id, funext InputValue.relabel_moving_id, List.map_id']
    rfl
  | type t => exact congrArg type t.relabel_moving_id

theorem Item.place_id (i : Item) : i.place id = i := by
  have hds : ∀ ds : Diagnostics, ds.map (Diagnostic.place id) = ds := fun ds => List.map_id ds
  cases i with
  | defined d ds => rw [place, d.relabel_moving_id, hds]
  | givenUp ds => rw [place, hds]
  | stopped d => rfl

/-! ### What is read at other places -/

namespace Parsed

/-- What was read, at other places. -/
def place (f : Location → Location) (p : Parsed) : Parsed where
  document := p.document.relabel (.moving f)
  diagnostics := p.diagnostics.map (Diagnostic.place f)
  aborted := p.aborted

/-- What was read first, and what was read behind it. -/
def append (p q : Parsed) : Parsed where
  document := p.document.append q.document
  diagnostics := p.diagnostics ++ q.diagnostics
  aborted := p.aborted || q.aborted

theorem ofItems_place (f : Location → Location) (name : String) (rounds : List Item) :
    ofItems name (rounds.map (Item.place f)) = (ofItems name rounds).place f := by
  have hdef : ∀ i : Item, (i.place f).definition? = i.definition?.map (.relabel (.moving f)) :=
    fun i => by cases i <;> rfl
  have hfound : ∀ i : Item, (i.place f).found = i.found.map (Diagnostic.place f) :=
    fun i => by cases i <;> rfl
  have hstop : ∀ i : Item, (i.place f).isStop = i.isStop := fun i => by cases i <;> rfl
  simp only [ofItems, place, Document.relabel_foldl_define, List.filterMap_map, List.map_filterMap,
    List.flatMap_map, List.map_flatMap, List.any_map, Function.comp_def, hdef, hfound, hstop]
  rfl

theorem ofItems_append (name : String) (rounds rounds' : List Item) :
    ofItems name (rounds ++ rounds') = (ofItems name rounds).append (ofItems name rounds') := by
  simp only [ofItems, append, List.filterMap_append, List.flatMap_append, List.any_append,
    List.foldl_append]
  rw [Document.foldl_define_eq_append _ _ name]

end Parsed

/-- What `d` tells of a text, `e` tells of the same text behind `source` and a line feed. -/
structure Diagnostic.Follows (source : String) (d e : Diagnostic) : Prop where
  cause : e.cause = d.cause
  severity : e.severity = d.severity
  kind : e.kind = d.kind
  code : e.code = d.code
  line : e.location.position.line = d.location.position.line + (source.toList.count '\n' + 1)
  column : e.location.position.column = d.location.position.column
  start : e.location.span.start = d.location.span.start + (source.utf8ByteSize + 1)
  stop : e.location.span.stop = d.location.span.stop + (source.utf8ByteSize + 1)
  message : e.message = d.cause.message
    ⟨d.location.position.line + (source.toList.count '\n' + 1), d.location.position.column⟩

theorem Diagnostic.follows_place (source : String) (d : Diagnostic) :
    Follows source d (d.place (Location.move (behind source))) := by
  have hbytes : (behind source).bytes = source.utf8ByteSize + 1 :=
    congrArg (· + 1) (byteCount_toList source)
  exact ⟨rfl, rfl, rfl, rfl, rfl, rfl, congrArg (d.location.span.start + ·) hbytes,
    congrArg (d.location.span.stop + ·) hbytes, rfl⟩

/-! ### Two texts -/

section

variable {a b name : String}

theorem aborted_of_clean (h : (parse a name).diagnostics = []) :
    (parse a name).aborted = false := by
  rw [← Bool.not_eq_true]
  exact fun hab => Parsed.diagnostics_ne_nil_of_aborted hab h

theorem parsed_of_clean (h : (parse a name).diagnostics = []) :
    parse a name = ⟨(parse a name).document, [], false⟩ := by
  rw [← h, ← aborted_of_clean h]

theorem mem_document_of_clean (h : (parse a name).diagnostics = []) :
    (Tokens.ofString a).words ∈ Grammar.document := by
  rw [← items_form_iff (Tokens.ofString a).stop]
  intro i hi d hd
  have hmem : d ∈ (parse a name).diagnostics := List.mem_flatMap.mpr ⟨i, hi, hd⟩
  rw [h] at hmem
  cases hmem

/-- A text that is read without complaint, with another one on a line behind it that begins like
a statement, is read as the definitions of both, those of the other one at their new places. -/
theorem parse_append (ha : (parse a name).diagnostics = []) (hb : Fresh (Tokens.ofString b).words) :
    parse (a ++ "\n" ++ b) name =
      (parse a name).append ((parse b name).place (Location.move (behind a))) := by
  have hproper : ∀ t ∈ (Tokens.ofString a).words, ¬ t.IsBroken := fun t ht hbroken =>
    composes_proper.document _ (mem_document_of_clean ha) t ht hbroken.1
  have hfresh : Fresh ((Tokens.ofString b).words.map (Token.place (Location.move (behind a)))) := by
    intro t ht
    rw [List.head?_map, Option.mem_map] at ht
    obtain ⟨u, hu, rfl⟩ := ht
    exact hb u hu
  have hclean : ∀ i ∈ items (Tokens.ofString a).stop (Tokens.ofString a).words, i.found = [] :=
    fun i hi => List.flatMap_eq_nil_iff.mp ha i hi
  have hfirst : ∀ stop more, Fresh more → items stop ((Tokens.ofString a).words ++ more) =
      items (Tokens.ofString a).stop (Tokens.ofString a).words ++ items stop more := by
    intro stop more hmore
    have hcarry := @items_carry id (Tokens.ofString a).stop stop (Tokens.ofString a).words more
      hmore fun i hi hne => absurd (hclean i hi) hne
    rwa [funext Item.place_id, List.map_id', show Token.place id = id from rfl,
      List.map_id] at hcarry
  rw [parse, Tokens.ofString_append a b hproper, Tokens.parse]
  dsimp only [Tokens.place]
  rw [hfirst _ _ hfresh, items_place, Parsed.ofItems_append, Parsed.ofItems_place]
  rfl

/-- The document of two texts: that of the first one, and behind it that of the second one, which
is as it was but for places. -/
theorem exists_parse_append (ha : (parse a name).diagnostics = [])
    (hb : (parse b name).diagnostics = []) : ∃ e : Document, parse (a ++ "\n" ++ b) name =
      ⟨(parse a name).document.append e, [], false⟩ ∧
    e.relabel .plain = (parse b name).document.relabel .plain := by
  refine ⟨((parse b name).place (Location.move (behind a))).document, ?_,
    Document.relabel_relabel _⟩
  rw [parse_append ha (fresh_of_document (mem_document_of_clean hb)), Parsed.append, ha,
    aborted_of_clean ha, Parsed.place, hb, aborted_of_clean hb]
  rfl

/-- A text that is read without complaint and another one on a line behind it that begins like a
statement, told without putting documents behind each other: the definitions of the other one are
inserted in order, and its diagnostics follow. -/
theorem parse_behind (ha : (parse a name).diagnostics = [])
    (hb : Fresh (Tokens.ofString b).words) :
    let p := parse a name
    let q := parse b name
    let whole := parse (a ++ "\n" ++ b) name
    let moved := Relabeling.moving (Location.move (behind a))
    whole.document.name = name ∧
      whole.document.types = q.document.types.values.foldl
        (fun types t => types.insert t.name.value (t.relabel moved)) p.document.types ∧
      whole.document.types.keys =
        p.document.types.keys ++ q.document.types.keys.filter (· ∉ p.document.types.keys) ∧
      (∀ n, whole.document.get? n =
        ((q.document.get? n).map (TypeDefinition.relabel moved)).or (p.document.get? n)) ∧
      whole.document.directives = q.document.directives.values.foldl
        (fun directives v => directives.insert v.name.value (v.relabel moved))
        p.document.directives ∧
      whole.document.schema = (q.document.schema.map (Schema.relabel moved)).or p.document.schema ∧
      whole.aborted = q.aborted ∧
      List.Forall₂ (Diagnostic.Follows a) q.diagnostics whole.diagnostics := by
  intro p q whole moved
  have hwhole : whole = p.append (q.place (Location.move (behind a))) := parse_append ha hb
  have hkeyed := keyed_parse b name
  rw [hwhole]
  refine ⟨Document.name_foldl_define _ _, Table.append_map hkeyed.types _ _, ?_, fun n => ?_,
    Table.append_map hkeyed.directives _ _, rfl, ?_, ?_⟩
  · change (p.document.types.append (q.document.types.map _)).keys = _
    rw [Table.keys_append, Table.keys_map]
  · rw [Parsed.append, Document.get?_append, Parsed.place, Document.get?_relabel]
  · rw [Parsed.append, aborted_of_clean ha, Bool.false_or]
    rfl
  · rw [Parsed.append, ha, List.nil_append, Parsed.place, List.forall₂_map_right_iff,
      List.forall₂_same]
    exact fun d _ => d.follows_place a

/-- A type, and behind it another one of that name and a word that is no statement. -/
theorem parse_behind_redeclared :
    let a := "type A"
    let b := "type A x"
    let p := parse a "D"
    let q := parse b "D"
    let whole := parse (a ++ "\n" ++ b) "D"
    whole.document.types.keys =
        p.document.types.keys ++ q.document.types.keys.filter (· ∉ p.document.types.keys) ∧
      whole.aborted = q.aborted ∧ q.aborted = true ∧
      List.Forall₂ (Diagnostic.Follows a) q.diagnostics whole.diagnostics := by
  intro a b p q whole
  have ha : p.diagnostics = [] := by decide +kernel
  have hb : Fresh (Tokens.ofString b).words := by decide +kernel
  have hstop : q.aborted = true := by decide +kernel
  obtain ⟨-, -, hkeys, -, -, -, haborted, hfound⟩ := parse_behind ha hb
  exact ⟨hkeys, haborted, hstop, hfound⟩

end

/-! ### Many texts -/

theorem parse_empty (name : String) : parse "" name = ⟨.empty name, [], false⟩ := by
  rw [parse, Tokens.parse, show (Tokens.ofString "").words = [] from Tokens.words_ofCursor_nil _,
    items_nil]
  rfl

/-- Texts on lines of their own, each one read without complaint, are read as the definitions of
all of them. -/
theorem exists_parse_intercalate {texts : List String} {name : String}
    (h : ∀ s ∈ texts, (parse s name).diagnostics = []) :
    ∃ d : Document, parse ("\n".intercalate texts) name = ⟨d, [], false⟩ ∧
      d.relabel .plain = .appendAll name
        (texts.map fun s => (parse s name).document.relabel .plain) := by
  induction texts with
  | nil => exact ⟨.empty name, parse_empty name, rfl⟩
  | cons s texts ih =>
    obtain ⟨hs, htexts⟩ := List.forall_mem_cons.mp h
    cases texts with
    | nil =>
      rw [String.intercalate_singleton]
      exact ⟨_, parsed_of_clean hs, rfl⟩
    | cons t texts =>
      obtain ⟨d, hd, hplain⟩ := ih htexts
      obtain ⟨e, he, heplain⟩ := exists_parse_append hs (b := "\n".intercalate (t :: texts))
        (by rw [hd])
      rw [hd] at heplain
      refine ⟨_, by rw [String.intercalate_cons_cons]; exact he, ?_⟩
      rw [Document.relabel_append, heplain, hplain]
      rfl

end SchemaLang
