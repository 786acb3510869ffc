import SchemaLang.Proofs.Reader.Anchors
import SchemaLang.Proofs.Reader.Cuts
import SchemaLang.Proofs.Reader.Makes
import SchemaLang.Proofs.Reader.Productions

/-! What is read of a statement keeps, from the tree that it is written by, the names that count,
with the places where they stand. -/

namespace SchemaLang

/-! ### Names that are kept -/

/-- A name and where it stands. -/
def Token.mention (t : Token) : String × Location := (t.text, t.location)

def TypeRef.mention (r : TypeRef) : String × Location := (r.name, r.location)

/-- The argument or input field keeps the names of the tree. -/
structure InputValue.Keeps (v : InputValue) (w : Written.Input) : Prop where
  name : v.name.value = w.key
  type : v.type.mention = w.type.mention

/-- The items keep those of the trees that no tree before them has the key of. -/
def KeepFirsts {α β : Type} (R : α → β → Prop) (key : β → String) (as : List α) (ws : List β) :
    Prop :=
  List.Forall₂ R as (firsts key ws)

section KeepFirsts

variable {α β : Type} {R : α → β → Prop} {key : β → String} {as : List α} {ws : List β} {a : α}
  {w : β}

theorem KeepFirsts.nil : KeepFirsts R key [] [] := List.Forall₂.nil

/-- One more item is kept if its name is not taken. -/
theorem KeepFirsts.concat (h : KeepFirsts R key as ws) (name : α → String)
    (hname : ∀ a w, R a w → name a = key w) (ha : R a w) :
    (name a ∈ as.map name → KeepFirsts R key as (ws ++ [w])) ∧
      (name a ∉ as.map name → KeepFirsts R key (as ++ [a]) (ws ++ [w])) := by
  rw [KeepFirsts, KeepFirsts, firsts_concat, map_eq_of_forall₂ hname h, hname a w ha]
  constructor
  · intro hmem
    rwa [if_pos hmem]
  · intro hmem
    rw [if_neg hmem]
    exact List.rel_append h (.cons ha .nil)

end KeepFirsts

structure Field.Keeps (f : Field) (w : Written.Field) : Prop where
  name : f.name.value = w.key
  arguments : KeepFirsts InputValue.Keeps Written.Input.key f.arguments w.arguments
  type : f.type.mention = w.type.mention

def TypeRef.Keeps (r : TypeRef) (t : Token) : Prop := r.mention = t.mention

structure FieldSet.Keeps (b : FieldSet) (is : List Token) (fs : List Written.Field) : Prop where
  interfaces : KeepFirsts TypeRef.Keeps (·.text) b.interfaces is
  fields : KeepFirsts Field.Keeps Written.Field.key b.fields.values fs

inductive TypeBody.Keeps : TypeBody → Written.Body → Prop
  | scalar : Keeps .scalar .scalar
  | object {b : FieldSet} {is : List Token} {fs : List Written.Field} (h : b.Keeps is fs) :
      Keeps (.object b) (.object is fs)
  | interface {b : FieldSet} {is : List Token} {fs : List Written.Field} (h : b.Keeps is fs) :
      Keeps (.interface b) (.interface is fs)
  | union {rs : List TypeRef} {ms : List Token} (h : List.Forall₂ TypeRef.Keeps rs ms) :
      Keeps (.union rs) (.union ms)
  | enum (vs : List EnumValue) : Keeps (.enum vs) .enum
  | input {t : Table InputValue} {fs : List Written.Input}
      (h : KeepFirsts InputValue.Keeps Written.Input.key t.values fs) : Keeps (.input t) (.input fs)

/-- The definition keeps the names of the tree that count, where they stand. -/
inductive Definition.Keeps : Definition → Written → Prop
  | schema {s : Schema} {ops : List Token}
      (h : List.Forall₂ TypeRef.Keeps (s.operations.map (·.type)) ops) :
      Keeps (.schema s) (.schema ops)
  | directive {v : DirectiveDefinition} {n : Token} {args : List Written.Input}
      (hn : v.name.value = n.text)
      (h : KeepFirsts InputValue.Keeps Written.Input.key v.arguments args) :
      Keeps (.directive v) (.directive n args)
  | type {t : TypeDefinition} {n : Token} {b : Written.Body} (hn : t.name.value = n.text)
      (h : t.body.Keeps b) : Keeps (.type t) (.type n b)

namespace Reader

open Grammar
open scoped Computability

variable {α : Type} {bad : List TokenKind}

/-! ### Names and types -/

theorem avoids_named {t : Token} (h : ∀ k ∈ bad, k.isName = false) : Avoids (named t) bad :=
  .one fun u hu hk => by simp [h _ hk] at hu

theorem nil_notMem_named {t : Token} : [] ∉ named t := nil_notMem_one

theorem makes_name (t : Token) :
    Makes name (named t) (fun n => n.value = t.text ∧ n.location = t.location) [] := by
  rintro _ ⟨u, ⟨rfl, hu⟩, rfl⟩ rest -
  exact ⟨⟨u.text, u.location⟩, [], by simp [name, run_take, hu], rfl, rfl⟩

theorem makes_typeName (t : Token) : Makes typeName (named t) (·.Keeps t) [] :=
  (makes_name t).last fun _ hn => .pure (Prod.ext hn.1 hn.2)

/-- A type keeps the one name that stands in it. -/
theorem makes_typeRef (t : Token) : Makes typeRef (typeNamed t) (·.Keeps t) [.mark .bang] := by
  rintro used ⟨hu, ht⟩ rest hc
  obtain ⟨r, ds, hr⟩ := recognizes_typeRef.complete hu (Nat.lt_succ_self _) hc
  have halone : typeRef.run used = .done r ds [] :=
    (kept_cuts rest).typeRef used (.done r ds []) trivial hr
  have hyields : Yields (.endsOf used) (fun _ => True) typeRef (TypeRef.Anchored used) :=
    yields_typeRef
  obtain ⟨u, hmem, hname, htext, hlocation⟩ :=
    (hyields used (List.suffix_refl used)).made r ds [] halone
  have hone : u ∈ used.filter (·.kind.isName) := List.mem_filter.mpr ⟨hmem, hname⟩
  rw [ht] at hone
  obtain rfl := List.mem_singleton.mp hone
  exact ⟨r, ds, hr, Prod.ext htext.symm hlocation.symm⟩

theorem makes_description : Makes Reader.description Grammar.description (fun _ => True)
    [.string, .blockString] := Recognizes.makes fun _ => recognizes_description

theorem makes_directives : Makes Reader.directives Grammar.directives (fun _ => True)
    [.mark .atSign, .mark .lparen] := Recognizes.makes fun _ => recognizes_directives

theorem makes_expect (k : TokenKind) : Makes (expect k) (kind k) (fun _ => True) [] :=
  Recognizes.makes fun _ => .expect

theorem makes_accept (k : TokenKind) : Makes (accept k) (optional (kind k)) (fun _ => True) [k] :=
  Recognizes.makes fun _ => .accept

/-! ### Fields and arguments -/

theorem makes_noteOr {p : Prop} [Decidable p] {P : α → Prop} (d : Diagnostic) {a b : α}
    (ha : p → P a) (hb : ¬ p → P b) :
    Makes (do
      if p then
        note d
        return a
      return b) 1 P bad := by
  rintro _ rfl rest -
  split
  next hp => exact ⟨a, [d], rfl, ha hp⟩
  next hp => exact ⟨b, [], rfl, hb hp⟩

theorem makes_inputValue (w : Written.Input) : Makes inputValue w.words (·.Keeps w)
    [.mark .bang, .mark .equals, .mark .atSign, .mark .lparen] := by
  refine makes_description.bind (fun _ _ => (makes_name w.name).seq fun n hn =>
    (makes_expect _).seq fun _ _ => (makes_typeRef w.type).bind (fun r hr => .accept_optional
      ?_ ?_ (avoids_directives (by simp)) (by simp)) ?_ ?_) ?_ ?_
  · rw [if_pos rfl, map_eq_pure_bind, bind_assoc]
    simp only [pure_bind]
    refine (Recognizes.makes fun _ => recognizes_value).seq fun v _ => ?_
    exact (makes_directives.last fun ds _ => .pure ⟨hn.1, hr⟩).widen (by simp)
  · simp only [Bool.false_eq_true, if_false, pure_bind]
    exact (makes_directives.last fun ds _ => .pure ⟨hn.1, hr⟩).widen (by simp)
  · exact .mul (.optional (.kind_mul (by simp))) fun _ => avoids_directives (by simp)
  · simp
  · exact (avoids_named (by simp [TokenKind.isName])).mul_left nil_notMem_named
  · exact fun h => absurd h (nil_notMem_mul_left nil_notMem_named)

theorem nil_notMem_described {n : Token} {L : Language Token} :
    [] ∉ Grammar.description * (named n * L) :=
  nil_notMem_mul_right (nil_notMem_mul_left nil_notMem_named)

/-- A description or a name comes first. -/
theorem avoids_described {n : Token} {L : Language Token}
    (h : ∀ k ∈ bad, k.isName = false ∧ k.isString = false) :
    Avoids (Grammar.description * (named n * L)) bad :=
  avoids_description_mul (fun hk => absurd (h _ hk).2 (by simp [TokenKind.isString]))
    (fun hk => absurd (h _ hk).2 (by simp [TokenKind.isString]))
    ((avoids_named fun k hk => (h k hk).1).mul_left nil_notMem_named)

theorem makes_arguments (ws : List Written.Input) :
    Makes argumentDefinitions (Written.argumentWords ws)
      (KeepFirsts InputValue.Keeps Written.Input.key · ws) [.mark .lparen] := by
  refine .group [.mark .bang, .mark .equals, .mark .atSign, .mark .lparen]
    (I := fun front args => KeepFirsts InputValue.Keeps Written.Input.key args front)
    (fun front w args hargs => ?_)
    (fun _ => avoids_described (by simp [TokenKind.isName, TokenKind.isString]))
    (fun _ => nil_notMem_described) (by simp) .nil ws
  refine (makes_inputValue w).last fun arg harg => ?_
  have hconcat := hargs.concat (·.name.value) (fun _ _ h => h.name) harg
  refine makes_noteOr _ (fun hp => hconcat.1 ?_) fun hp => hconcat.2 ?_
  · simpa using hp
  · simpa using hp

theorem makes_field (w : Written.Field) : Makes field w.words (·.Keeps w)
    [.mark .bang, .mark .atSign, .mark .lparen] := by
  refine makes_description.bind (fun _ _ => (makes_name w.name).seq fun n hn =>
    (makes_arguments w.arguments).bind (fun args hargs => (makes_expect _).seq fun _ _ =>
      (makes_typeRef w.type).bind (fun r hr => (makes_directives.last fun ds _ =>
        .pure ⟨hn.1, hargs, hr⟩).widen (by simp)) ?_ ?_) ?_ ?_) ?_ ?_
  · exact avoids_directives (by simp)
  · simp
  · exact .kind_mul (by simp)
  · exact fun h => absurd h (nil_notMem_mul_left nil_notMem_one)
  · exact (avoids_named (by simp [TokenKind.isName])).mul_left nil_notMem_named
  · exact fun h => absurd h (nil_notMem_mul_left nil_notMem_named)

/-- One more item is put into a table if its name is not taken. -/
theorem makes_addOnce {β : Type} {R : α → β → Prop} {key : β → String} {t : Table α} {ws : List β}
    {a : α} {w : β} (name : α → Name) (hname : ∀ a w, R a w → (name a).value = key w)
    (hkeyed : t.KeyedBy fun a => (name a).value) (h : KeepFirsts R key t.values ws) (ha : R a w) :
    Makes (addOnce t (name a) a) 1 (fun t => (t.KeyedBy fun a => (name a).value) ∧
      KeepFirsts R key t.values (ws ++ [w])) bad := by
  have hconcat := h.concat (fun a => (name a).value) hname ha
  have hmem : t.contains (name a).value = true ↔
      (name a).value ∈ t.values.map fun a => (name a).value := by
    rw [← hkeyed.keys_eq, Table.contains_eq_true_iff, Table.mem_keys_iff]
  refine makes_noteOr _ (fun hp => ⟨hkeyed, hconcat.1 (hmem.mp hp)⟩)
    fun hp => ⟨hkeyed.insert a, ?_⟩
  have hnot := hmem.not.mp hp
  rw [← hkeyed.keys_eq] at hnot
  rw [Table.values, Table.entries_insert_of_not_mem hnot, List.map_append]
  exact hconcat.2 (hkeyed.keys_eq ▸ hnot)

/-- A table in braces has the first item of each name. -/
theorem makes_table {β : Type} {read : Reader α} {spell : β → Language Token} {R : α → β → Prop}
    {key : β → String} (bad : List TokenKind) (name : α → Name)
    (hname : ∀ a w, R a w → (name a).value = key w)
    (hread : ∀ w, Makes read (spell w) (R · w) bad)
    (hspell : ∀ w, Avoids (spell w) (.mark .rbrace :: bad)) (hnil : ∀ w, [] ∉ spell w)
    (hb : .mark .rbrace ∉ bad) (ws : List β) :
    Makes (do
      if ← accept (.mark .lbrace) then
        untilMark .rbrace (fun table => do
          let a ← read
          addOnce table (name a) a) ∅
      else return ∅)
      (betweenIfAny .lbrace .rbrace (ws.map spell)) (fun t => KeepFirsts R key t.values ws)
      [.mark .lbrace] := by
  refine .imp (.group bad (I := fun front t => (t.KeyedBy fun a => (name a).value) ∧
    KeepFirsts R key t.values front) (fun front w t ht => ?_) hspell hnil hb ⟨.empty, .nil⟩ ws)
      fun _ h => h.2
  exact (hread w).last fun a ha => makes_addOnce name hname ht.1 ht.2 ha

theorem makes_fields (ws : List Written.Field) :
    Makes fields (betweenIfAny .lbrace .rbrace (ws.map Written.Field.words))
      (fun t => KeepFirsts Field.Keeps Written.Field.key t.values ws) [.mark .lbrace] :=
  makes_table [.mark .bang, .mark .atSign, .mark .lparen] Field.name (fun _ _ h => h.name)
    makes_field (fun _ => avoids_described (by simp [TokenKind.isName, TokenKind.isString]))
    (fun _ => nil_notMem_described) (by simp) ws

theorem makes_inputFields (ws : List Written.Input) :
    Makes inputFields (betweenIfAny .lbrace .rbrace (ws.map Written.Input.words))
      (fun t => KeepFirsts InputValue.Keeps Written.Input.key t.values ws) [.mark .lbrace] :=
  makes_table [.mark .bang, .mark .equals, .mark .atSign, .mark .lparen] InputValue.name
    (fun _ _ h => h.name) makes_inputValue
    (fun _ => avoids_described (by simp [TokenKind.isName, TokenKind.isString]))
    (fun _ => nil_notMem_described) (by simp) ws

/-! ### Interfaces and members -/

theorem makes_nextInterface {rs : List TypeRef} {front : List Token}
    (h : KeepFirsts TypeRef.Keeps (·.text) rs front) (t : Token) :
    Makes (nextInterface rs) (named t)
      (KeepFirsts TypeRef.Keeps (·.text) · (front ++ [t])) [] := by
  refine (makes_typeName t).last fun r hr => ?_
  have hconcat := h.concat (·.name) (fun _ _ h => congrArg Prod.fst h) hr
  refine makes_noteOr _ (fun hp => hconcat.1 ?_) fun hp => hconcat.2 ?_
  · simpa using hp
  · simpa using hp

/-- A clause of names: none are read if there are none, and else they are read one by one. -/
theorem makes_clause {lead : TokenKind} {m : Mark} {first : Reader α} {next : α → Reader α}
    {none : α} {P : List Token → α → Prop} (hnil : P [] none)
    (hfirst : ∀ t, Makes first (named t) (P [t]) [])
    (hnext : ∀ front t a, P front a → Makes (next a) (named t) (P (front ++ [t])) [])
    (ts : List Token) :
    Makes (do
      if ← accept lead then
        let _ ← accept (.mark m)
        whileMark m next (← first)
      else return none) (clause (kind lead) m ts) (P ts) [lead, .mark m] := by
  cases ts with
  | nil => exact .accept_other (.pure hnil) avoids_one_word (by simp)
  | cons t ts =>
    have hloop : Makes (first >>= whileMark m next)
        (named t * (ts.map fun u => mark m * named u).prod) (P (t :: ts)) [.mark m] :=
      (hfirst t).seq fun a ha => .whileMark (I := P) hnext (by simp) ha ts
    have hall := (makes_accept (.mark m)).bind (fun _ _ => hloop)
      ((avoids_named (by simp [TokenKind.isName])).mul_left nil_notMem_named)
      fun h => absurd h (nil_notMem_mul_left nil_notMem_named)
    refine .accept_next ?_
    exact hall.widen (by simp)

theorem makes_interfaces (is : List Token) :
    Makes interfaces (clause (word .implements) .amp is)
      (KeepFirsts TypeRef.Keeps (·.text) · is) [.keyword .implements, .mark .amp] := by
  rw [interfaces_eq]
  exact makes_clause (P := fun front rs => KeepFirsts TypeRef.Keeps (·.text) rs front) .nil
    (fun t => makes_nextInterface .nil t) (fun front t rs h => makes_nextInterface h t) is

theorem members_eq : members = (do
    if ← accept (.mark .equals) then
      let _ ← accept (.mark .pipe)
      whileMark .pipe (fun rs => do return rs ++ [← typeName]) (← (do return [← typeName]))
    else return []) := by
  simp only [bind_assoc, pure_bind]
  rfl

theorem makes_members (ms : List Token) :
    Makes members (clause (mark .equals) .pipe ms)
      (List.Forall₂ TypeRef.Keeps · ms) [.mark .equals, .mark .pipe] := by
  rw [members_eq]
  refine makes_clause (P := fun front rs => List.Forall₂ TypeRef.Keeps rs front) .nil
    (fun t => ?_) (fun front t rs h => ?_) ms
  · exact (makes_typeName t).last fun r hr => .pure (.cons hr .nil)
  · exact (makes_typeName t).last fun r hr => .pure (List.rel_append h (.cons hr .nil))

/-! ### Definitions -/

theorem avoids_clause {lead : TokenKind} {m : Mark} {ts : List Token} (h : lead ∉ bad) :
    Avoids (clause (kind lead) m ts) bad := by
  cases ts with
  | nil => exact avoids_one_word
  | cons t ts => exact .kind_mul h

theorem avoids_betweenIfAny {l r : Mark} {Ls : List (Language Token)} (h : .mark l ∉ bad) :
    Avoids (betweenIfAny l r Ls) bad := by
  cases Ls with
  | nil => exact .optional (.kind_mul h)
  | cons L Ls => exact .kind_mul h

theorem makes_fieldSet (is : List Token) (fs : List Written.Field) :
    Makes fieldSet (Written.fieldSetWords is fs) (·.2.Keeps is fs) continuations := by
  refine (makes_interfaces is).bind (fun rs hrs => makes_directives.bind (fun ds _ =>
    ((makes_fields fs).last fun t ht => .pure ⟨hrs, ht⟩).widen (by simp [continuations])) ?_ ?_)
    ?_ ?_
  · exact avoids_betweenIfAny (by simp)
  · simp [continuations]
  · exact .mul (avoids_directives (by simp)) fun _ => avoids_betweenIfAny (by simp)
  · simp [continuations]

/-- What a type definition says after its name, for the kind that its tree has. -/
def bodyKind : Written.Body → TypeKind
  | .scalar => .scalar
  | .object _ _ => .object
  | .interface _ _ => .interface
  | .union _ => .union
  | .enum => .enum
  | .input _ => .input

theorem makes_typeBody (b : Written.Body) :
    Makes (typeBody (bodyKind b)) b.words (·.2.Keeps b) continuations := by
  have hcontinuations : [.mark .atSign, .mark .lparen] ⊆ continuations := by simp [continuations]
  cases b with
  | scalar => exact (makes_directives.last fun ds _ => .pure .scalar).widen hcontinuations
  | object is fs => exact (makes_fieldSet is fs).last fun p hp => .pure (.object hp)
  | interface is fs => exact (makes_fieldSet is fs).last fun p hp => .pure (.interface hp)
  | union ms =>
    exact makes_directives.bind (fun ds _ => ((makes_members ms).last fun rs hrs =>
      .pure (.union hrs)).widen (by simp [continuations])) (avoids_clause (by simp))
      fun _ => hcontinuations
  | enum =>
    have henum := Recognizes.makes fun n => recognizes_enumValues (n := n)
    exact makes_directives.bind (fun ds _ => (henum.last fun vs _ => .pure (.enum vs)).widen
      (by simp [continuations])) (.optional (.kind_mul (by simp))) fun _ => hcontinuations
  | input fs =>
    exact makes_directives.bind (fun ds _ => ((makes_inputFields fs).last fun t ht =>
      .pure (.input ht)).widen (by simp [continuations])) (avoids_betweenIfAny (by simp))
      fun _ => hcontinuations

theorem makes_typeDefinition (d : Option String) (n : Token) (b : Written.Body) :
    Makes (Definition.type <$> typeDefinition d (bodyKind b)) (named n * b.words)
      (·.Keeps (.type n b)) continuations := by
  refine .map (P := fun t => t.name.value = n.text ∧ t.body.Keeps b) ?_ fun t ht => .type ht.1 ht.2
  exact (makes_name n).seq fun m hm => (makes_typeBody b).last fun p hp => .pure ⟨hm.1, hp⟩

theorem makes_rootOperation (t : Token) :
    Makes rootOperation (Written.operationWords t) (·.type.Keeps t) [] :=
  (Recognizes.makes fun _ => recognizes_operationKind).seq fun _ _ => (makes_expect _).seq
    fun _ _ => (makes_typeName t).last fun _ hr => .pure hr

theorem makes_schema (d : Option String) (ops : List Token) :
    Makes (schema d) (Written.wordsAfter (.schema ops))
      (fun s => List.Forall₂ TypeRef.Keeps (s.operations.map (·.type)) ops) [] := by
  have hkinds : Avoids (word .query + word .mutation + word .subscription) [.mark .rbrace] :=
    .add (.add (.kind (by simp)) (.kind (by simp))) (.kind (by simp))
  have hstep : ∀ (front : List Token) (t : Token) (ops : List RootOperation),
      List.Forall₂ TypeRef.Keeps (ops.map (·.type)) front →
        Makes (do return ops ++ [← rootOperation]) (Written.operationWords t)
          (fun ops => List.Forall₂ TypeRef.Keeps (ops.map (·.type)) (front ++ [t])) [] := by
    refine fun front t ops h => (makes_rootOperation t).last fun op hop => .pure ?_
    rw [List.map_append]
    exact List.rel_append h (.cons hop .nil)
  have hnone : List.Forall₂ TypeRef.Keeps (([] : List RootOperation).map (·.type)) [] := .nil
  have hloop := Makes.untilMark hstep (fun t => hkinds.mul_left nil_notMem_operationKind)
    (fun t => nil_notMem_mul_left nil_notMem_operationKind) (by simp) hnone ops
  refine makes_directives.bind (fun ds _ => (makes_expect _).seq fun _ _ =>
    hloop.last fun ops hops => .pure hops) (.kind_mul (by simp)) ?_
  exact fun h => absurd h (nil_notMem_mul_left nil_notMem_one)

theorem makes_directiveDefinition (d : Option String) (n : Token) (args : List Written.Input) :
    Makes (directiveDefinition d) (Written.wordsAfter (.directive n args))
      (fun v => v.name.value = n.text ∧
        KeepFirsts InputValue.Keeps Written.Input.key v.arguments args) [.mark .pipe] := by
  have hlocations : Makes (separated .pipe directiveLocation)
      (Grammar.separated .pipe Grammar.location) (fun _ => True) [.mark .pipe] :=
    Recognizes.makes fun _ => recognizes_directiveLocation.separated (by simp)
  refine (makes_expect _).seq fun _ _ => (makes_name n).seq fun m hm => (makes_arguments args).bind
    (fun as has => (makes_accept _).bind (fun _ _ => (makes_expect _).seq fun _ _ =>
      (makes_accept _).bind (fun _ _ => hlocations.last fun ls _ => .pure ⟨hm.1, has⟩) ?_ ?_)
      ?_ ?_) ?_ ?_
  · refine .mul_left (.one fun t ht => ?_) nil_notMem_one
    simp [ht.1]
  · simp
  · exact .kind_mul (by simp)
  · exact fun h => absurd h (nil_notMem_mul_left nil_notMem_one)
  · exact .mul (.optional (.kind (by simp))) fun _ => .kind_mul (by simp)
  · exact fun h => absurd h (nil_notMem_mul_right (nil_notMem_mul_left nil_notMem_one))

/-- What is read behind the keyword of a statement keeps the names of its tree. -/
theorem makes_definition (d : Option String) (w : Written) :
    Makes (definition d w.kind) w.wordsAfter (·.Keeps w) continuations := by
  cases w with
  | schema ops => exact ((makes_schema d ops).map fun s hs => .schema hs).widen (by simp)
  | directive n args =>
    exact ((makes_directiveDefinition d n args).map fun v hv => .directive hv.1 hv.2).widen
      (by simp [continuations])
  | type n b =>
    cases b with
    | scalar | object _ _ | interface _ _ | union _ | enum | input _ =>
      exact makes_typeDefinition d n _

end Reader

end SchemaLang
