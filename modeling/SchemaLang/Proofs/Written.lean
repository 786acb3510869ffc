import Mathlib.Data.List.Flatten
import Mathlib.Data.List.Forall2
import SchemaLang.Document.Basic
import SchemaLang.Proofs.Grammar

/-! Statements as they are written: the names that stand in them by the places that the grammar
has for names. A tree of such names has the words that it can be written in, and each statement of
the grammar is a word of a tree. Of names that repeat where a name may stand once, the first one
counts; of statements that define one thing, the last one counts. -/

namespace SchemaLang

open scoped Computability

/-! ### Repeated keys -/

section Repeated

variable {α β κ : Type} [DecidableEq κ] {key : α → κ} {x : α} {xs : List α}

/-- The items with keys that no item before them has. -/
def firsts (key : α → κ) : List α → List α
  | [] => []
  | x :: xs => x :: (firsts key xs).filter fun y => key y ≠ key x

/-- The items with keys that no item behind them has. -/
def lasts (key : α → κ) (xs : List α) : List α := (firsts key xs.reverse).reverse

theorem firsts_sublist (key : α → κ) (xs : List α) : (firsts key xs).Sublist xs := by
  induction xs with
  | nil => exact .slnil
  | cons x xs ih => exact (List.filter_sublist.trans ih).cons_cons x

theorem lasts_sublist (key : α → κ) (xs : List α) : (lasts key xs).Sublist xs := by
  have h := (firsts_sublist key xs.reverse).reverse
  rwa [List.reverse_reverse] at h

theorem firsts_concat (key : α → κ) (xs : List α) (x : α) : firsts key (xs ++ [x]) =
    if key x ∈ (firsts key xs).map key then firsts key xs else firsts key xs ++ [x] := by
  induction xs with
  | nil => rfl
  | cons y ys ih =>
    rw [List.cons_append, firsts, firsts, ih]
    by_cases hy : key x = key y
    · -- the item is dropped behind `y`, whether one behind `y` has its key or not
      have hdrop : (if key x ∈ (firsts key ys).map key then firsts key ys
          else firsts key ys ++ [x]).filter (fun z => key z ≠ key y) =
            (firsts key ys).filter fun z => key z ≠ key y := by
        split
        next => rfl
        next => simp [hy]
      rw [hdrop, if_pos (by simp [hy])]
    · have hmem : key x ∈ (y :: (firsts key ys).filter fun z => key z ≠ key y).map key ↔
          key x ∈ (firsts key ys).map key := by
        simp only [List.map_cons, List.mem_cons, hy, false_or, List.mem_map, List.mem_filter]
        refine ⟨fun ⟨z, hz, hx⟩ => ⟨z, hz.1, hx⟩, fun ⟨z, hz, hx⟩ => ⟨z, ⟨hz, ?_⟩, hx⟩⟩
        simpa [hx] using hy
      by_cases hx : key x ∈ (firsts key ys).map key
      · rw [if_pos hx, if_pos (hmem.mpr hx)]
      · rw [if_neg hx, if_neg (hmem.not.mpr hx), List.filter_append]
        simp [hy]

theorem lasts_concat (key : α → κ) (xs : List α) (x : α) :
    lasts key (xs ++ [x]) = (lasts key xs).filter (fun y => key y ≠ key x) ++ [x] := by
  rw [lasts, List.reverse_concat, firsts, List.reverse_cons, lasts, List.filter_reverse]

omit [DecidableEq κ] in
theorem map_eq_of_forall₂ {R : α → β → Prop} {key' : β → κ} {ys : List β}
    (hkey : ∀ x y, R x y → key x = key' y) (h : List.Forall₂ R xs ys) :
    xs.map key = ys.map key' := by
  induction h with
  | nil => rfl
  | cons h _ ih => rw [List.map_cons, List.map_cons, hkey _ _ h, ih]

/-- Items that go together by pairs and have one key each do so where the first ones are kept. -/
theorem forall₂_firsts {R : α → β → Prop} {key' : β → κ} {ys : List β}
    (hkey : ∀ x y, R x y → key x = key' y) (h : List.Forall₂ R xs ys) :
    List.Forall₂ R (firsts key xs) (firsts key' ys) := by
  induction h with
  | nil => exact .nil
  | @cons x y xs ys hxy _ ih =>
    refine .cons hxy (List.rel_filter (fun a b hab => ?_) ih)
    simp [hkey a b hab, hkey x y hxy]

theorem forall₂_lasts {R : α → β → Prop} {key' : β → κ} {ys : List β}
    (hkey : ∀ x y, R x y → key x = key' y) (h : List.Forall₂ R xs ys) :
    List.Forall₂ R (lasts key xs) (lasts key' ys) :=
  List.rel_reverse (forall₂_firsts hkey (List.rel_reverse h))

end Repeated

/-! ### Trees of names -/

namespace Written

/-- An argument or an input field, with the name in its type. -/
structure Input where
  name : Token
  type : Token

structure Field where
  name : Token
  arguments : List Input
  type : Token

/-- What a type definition says after its name. -/
inductive Body where
  | scalar
  | object (interfaces : List Token) (fields : List Field)
  | interface (interfaces : List Token) (fields : List Field)
  | union (members : List Token)
  | enum
  | input (fields : List Input)

end Written

/-- A statement, by the names in it. -/
inductive Written where
  | schema (operations : List Token)
  | directive (name : Token) (arguments : List Written.Input)
  | type (name : Token) (body : Written.Body)

/-- What a statement defines. Of statements that define the same the last one counts. -/
inductive Target where
  | schema
  | directive (name : String)
  | type (name : String)
  deriving DecidableEq

namespace Written

def Input.key (v : Input) : String := v.name.text

def Field.key (f : Field) : String := f.name.text

/-- The names of types, in the order in which they stand: the arguments of a field stand before
its own type. -/
def Field.typeNames (f : Field) : List Token :=
  (firsts Input.key f.arguments).map (·.type) ++ [f.type]

/-- The names of types that count, in the order in which they stand. -/
def Body.typeNames : Body → List Token
  | scalar | enum => []
  | object is fs | interface is fs =>
    firsts (·.text) is ++ (firsts Field.key fs).flatMap Field.typeNames
  | union ms => ms
  | input fs => (firsts Input.key fs).map (·.type)

/-- The names of types that count, in the order in which they stand. -/
def typeNames : Written → List Token
  | schema ops => ops
  | directive _ args => (firsts Input.key args).map (·.type)
  | type _ b => b.typeNames

def target : Written → Target
  | schema _ => .schema
  | directive n _ => .directive n.text
  | type n _ => .type n.text

/-- The names of types that count in statements one behind the other. -/
def surviving (ws : List Written) : List Token := (lasts target ws).flatMap typeNames

end Written

/-! ### The words of a tree -/

namespace Grammar

/-- The name `t`. -/
def named (t : Token) : Language Token := one fun u => u = t ∧ u.kind.isName

/-- A type with the name `t` in it. -/
def typeNamed (t : Token) : Language Token :=
  {ts | ts ∈ type ∧ ts.filter (·.kind.isName) = [t]}

/-- One word of each language, in their order, between two marks. -/
def between (l r : Mark) (Ls : List (Language Token)) : Language Token :=
  mark l * (Ls.prod * mark r)

/-- One word of each language between two marks, which may be missing if there are no languages. -/
def betweenIfAny (l r : Mark) : List (Language Token) → Language Token
  | [] => optional (between l r [])
  | L :: Ls => between l r (L :: Ls)

/-- One or more names with a mark between each two and perhaps before the first, behind words that
lead to them; and nothing if there are no names. -/
def clause (lead : Language Token) (m : Mark) : List Token → Language Token
  | [] => 1
  | t :: ts => lead * (optional (mark m) * (named t * (ts.map fun u => mark m * named u).prod))

end Grammar

namespace Written

open Grammar

def Input.words (v : Input) : Language Token :=
  description * (named v.name *
    (mark .colon * (typeNamed v.type * (optional (mark .equals * value) * directives))))

def argumentWords (args : List Input) : Language Token :=
  betweenIfAny .lparen .rparen (args.map Input.words)

def Field.words (f : Field) : Language Token :=
  description * (named f.name *
    (argumentWords f.arguments * (mark .colon * (typeNamed f.type * directives))))

def fieldSetWords (is : List Token) (fs : List Field) : Language Token :=
  clause (word .implements) .amp is *
    (directives * betweenIfAny .lbrace .rbrace (fs.map Field.words))

def Body.words : Body → Language Token
  | scalar => directives
  | object is fs | interface is fs => fieldSetWords is fs
  | union ms => directives * clause (mark .equals) .pipe ms
  | enum => directives * enumValues
  | input fs => directives * betweenIfAny .lbrace .rbrace (fs.map Input.words)

def operationWords (t : Token) : Language Token :=
  (word .query + word .mutation + word .subscription) * (mark .colon * named t)

/-- What the statement says after the keyword that it begins with. -/
def wordsAfter : Written → Language Token
  | schema ops => directives * between .lbrace .rbrace (ops.map operationWords)
  | directive n args =>
    mark .atSign * (named n * (argumentWords args * (optional (word .repeatable) *
      (word .on * (optional (mark .pipe) * separated .pipe location)))))
  | type n b => named n * b.words

def kind : Written → StatementKind
  | schema _ => .schema
  | directive _ _ => .directive
  | type _ .scalar => .scalar
  | type _ (.object _ _) => .object
  | type _ (.interface _ _) => .interface
  | type _ (.union _) => .union
  | type _ .enum => .enum
  | type _ (.input _) => .input

/-- The ways to write the statement: a description or none, the keyword, and what is said after
it. -/
def words (w : Written) : Language Token :=
  description * (one (fun t => t.kind.statement? = some w.kind) * w.wordsAfter)

end Written

/-! ### Every statement has a tree -/

namespace Grammar

variable {α : Type} {L lead : Language Token} {spell : α → Language Token} {l r m : Mark}
  {ts : List Token}

theorem exists_named (h : ts ∈ name) : ∃ t, ts ∈ named t := by
  obtain ⟨t, ht, rfl⟩ := h
  exact ⟨t, t, ⟨rfl, ht⟩, rfl⟩

theorem filter_kind {k : TokenKind} (h : ts ∈ kind k) (hk : k.isName = false) :
    ts.filter (·.kind.isName) = [] := by
  obtain ⟨t, rfl, rfl⟩ := h
  simp [hk]

theorem filter_bang (h : ts ∈ optional (mark .bang)) : ts.filter (·.kind.isName) = [] :=
  h.elim (filter_kind · rfl) fun h => by rw [show ts = [] from h, List.filter_nil]

/-- There is one name in a type. -/
theorem exists_typeNamed (h : ts ∈ type) : ∃ t, ts ∈ typeNamed t := by
  refine exists_and_left.mpr ⟨h, ?_⟩
  induction h with
  | @name n b hn hb =>
    obtain ⟨t, ht, rfl⟩ := hn
    exact ⟨t, by simp [filter_bang hb, ht]⟩
  | list hl _ hr hb ih =>
    obtain ⟨t, ht⟩ := ih
    exact ⟨t, by simp [filter_kind hl rfl, filter_kind hr rfl, filter_bang hb, ht]⟩

theorem exists_prod (h : ∀ ts ∈ L, ∃ x, ts ∈ spell x) (hts : ts ∈ L∗) :
    ∃ xs : List α, ts ∈ (xs.map spell).prod := by
  obtain ⟨ws, rfl, hws⟩ := Language.mem_kstar.mp hts
  clear hts
  induction ws with
  | nil => exact ⟨[], rfl⟩
  | cons w ws ih =>
    rw [List.forall_mem_cons] at hws
    obtain ⟨x, hx⟩ := h w hws.1
    obtain ⟨xs, hxs⟩ := ih hws.2
    exact ⟨x :: xs, w, hx, ws.flatten, hxs, rfl⟩

theorem exists_between (h : ∀ ts ∈ L, ∃ x, ts ∈ spell x) (hts : ts ∈ group l r L) :
    ∃ xs : List α, ts ∈ between l r (xs.map spell) := by
  obtain ⟨u, hu, _, ⟨v, hv, w, hw, rfl⟩, rfl⟩ := hts
  obtain ⟨xs, hxs⟩ := exists_prod h hv
  exact ⟨xs, u, hu, _, ⟨v, hxs, w, hw, rfl⟩, rfl⟩

theorem exists_betweenIfAny (h : ∀ ts ∈ L, ∃ x, ts ∈ spell x) (hts : ts ∈ optional (group l r L)) :
    ∃ xs : List α, ts ∈ betweenIfAny l r (xs.map spell) := by
  rcases hts with hts | hts
  · obtain ⟨xs, hxs⟩ := exists_between h hts
    cases xs with
    | nil => exact ⟨[], .inl hxs⟩
    | cons x xs => exact ⟨x :: xs, hxs⟩
  · exact ⟨[], .inr hts⟩

theorem exists_clause
    (hts : ts ∈ optional (lead * (optional (mark m) * separated m name))) :
    ∃ ns, ts ∈ clause lead m ns := by
  rcases hts with ⟨u, hu, _, ⟨v, hv, _, ⟨n, hn, w, hw, rfl⟩, rfl⟩, rfl⟩ | hts
  · obtain ⟨t, ht⟩ := exists_named hn
    have hnext : ∀ ts ∈ mark m * name, ∃ u, ts ∈ mark m * named u := by
      rintro _ ⟨c, hc, n, hn, rfl⟩
      obtain ⟨u, hu⟩ := exists_named hn
      exact ⟨u, c, hc, n, hu, rfl⟩
    obtain ⟨us, hus⟩ := exists_prod hnext hw
    exact ⟨t :: us, u, hu, _, ⟨v, hv, _, ⟨n, ht, w, hus, rfl⟩, rfl⟩, rfl⟩
  · exact ⟨[], hts⟩

end Grammar

namespace Written

open Grammar

variable {ts : List Token}

theorem exists_input (h : ts ∈ inputValue) : ∃ v : Input, ts ∈ v.words := by
  obtain ⟨d, hd, _, ⟨n, hn, _, ⟨c, hc, _, ⟨t, ht, u, hu, rfl⟩, rfl⟩, rfl⟩, rfl⟩ := h
  obtain ⟨n', hn'⟩ := exists_named hn
  obtain ⟨t', ht'⟩ := exists_typeNamed ht
  exact ⟨⟨n', t'⟩, d, hd, _, ⟨n, hn', _, ⟨c, hc, _, ⟨t, ht', u, hu, rfl⟩, rfl⟩, rfl⟩, rfl⟩

theorem exists_arguments (h : ts ∈ argumentDefinitions) : ∃ args, ts ∈ argumentWords args :=
  exists_betweenIfAny (fun _ => exists_input) h

theorem exists_field (h : ts ∈ field) : ∃ f : Field, ts ∈ f.words := by
  obtain ⟨d, hd, _, ⟨n, hn, _, ⟨a, ha, _, ⟨c, hc, _, ⟨t, ht, u, hu, rfl⟩, rfl⟩, rfl⟩, rfl⟩,
    rfl⟩ := h
  obtain ⟨n', hn'⟩ := exists_named hn
  obtain ⟨as, has⟩ := exists_arguments ha
  obtain ⟨t', ht'⟩ := exists_typeNamed ht
  exact ⟨⟨n', as, t'⟩, d, hd, _,
    ⟨n, hn', _, ⟨a, has, _, ⟨c, hc, _, ⟨t, ht', u, hu, rfl⟩, rfl⟩, rfl⟩, rfl⟩, rfl⟩

theorem exists_fieldSet (h : ts ∈ interfaces * (directives * fields)) :
    ∃ is fs, ts ∈ fieldSetWords is fs := by
  obtain ⟨i, hi, _, ⟨d, hd, f, hf, rfl⟩, rfl⟩ := h
  obtain ⟨is, his⟩ := exists_clause hi
  obtain ⟨fs, hfs⟩ := exists_betweenIfAny (fun _ => exists_field) hf
  exact ⟨is, fs, i, his, _, ⟨d, hd, f, hfs, rfl⟩, rfl⟩

theorem exists_operation (h : ts ∈ rootOperation) : ∃ t, ts ∈ operationWords t := by
  obtain ⟨k, hk, _, ⟨c, hc, n, hn, rfl⟩, rfl⟩ := h
  obtain ⟨t, ht⟩ := exists_named hn
  exact ⟨t, k, hk, _, ⟨c, hc, n, ht, rfl⟩, rfl⟩

/-- What is said after a keyword is said by a tree. -/
theorem exists_wordsAfter {k : StatementKind} (h : ts ∈ afterKeyword k) :
    ∃ w : Written, w.kind = k ∧ ts ∈ w.wordsAfter := by
  cases k with
  | schema =>
    obtain ⟨d, hd, g, hg, rfl⟩ := h
    obtain ⟨ops, hops⟩ := exists_between (fun _ => exists_operation) hg
    exact ⟨.schema ops, rfl, d, hd, g, hops, rfl⟩
  | directive =>
    obtain ⟨a, ha, _, ⟨n, hn, _, ⟨g, hg, u, hu, rfl⟩, rfl⟩, rfl⟩ := h
    obtain ⟨n', hn'⟩ := exists_named hn
    obtain ⟨args, hargs⟩ := exists_arguments hg
    exact ⟨.directive n' args, rfl, a, ha, _, ⟨n, hn', _, ⟨g, hargs, u, hu, rfl⟩, rfl⟩, rfl⟩
  | scalar =>
    obtain ⟨n, hn, u, hu, rfl⟩ := h
    obtain ⟨n', hn'⟩ := exists_named hn
    exact ⟨.type n' .scalar, rfl, n, hn', u, hu, rfl⟩
  | object =>
    obtain ⟨n, hn, u, hu, rfl⟩ := h
    obtain ⟨n', hn'⟩ := exists_named hn
    obtain ⟨is, fs, hfs⟩ := exists_fieldSet hu
    exact ⟨.type n' (.object is fs), rfl, n, hn', u, hfs, rfl⟩
  | interface =>
    obtain ⟨n, hn, u, hu, rfl⟩ := h
    obtain ⟨n', hn'⟩ := exists_named hn
    obtain ⟨is, fs, hfs⟩ := exists_fieldSet hu
    exact ⟨.type n' (.interface is fs), rfl, n, hn', u, hfs, rfl⟩
  | union =>
    obtain ⟨n, hn, _, ⟨d, hd, m, hm, rfl⟩, rfl⟩ := h
    obtain ⟨n', hn'⟩ := exists_named hn
    obtain ⟨ms, hms⟩ := exists_clause hm
    exact ⟨.type n' (.union ms), rfl, n, hn', _, ⟨d, hd, m, hms, rfl⟩, rfl⟩
  | enum =>
    obtain ⟨n, hn, u, hu, rfl⟩ := h
    obtain ⟨n', hn'⟩ := exists_named hn
    exact ⟨.type n' .enum, rfl, n, hn', u, hu, rfl⟩
  | input =>
    obtain ⟨n, hn, _, ⟨d, hd, f, hf, rfl⟩, rfl⟩ := h
    obtain ⟨n', hn'⟩ := exists_named hn
    obtain ⟨fs, hfs⟩ := exists_betweenIfAny (fun _ => exists_input) hf
    exact ⟨.type n' (.input fs), rfl, n, hn', _, ⟨d, hd, f, hfs, rfl⟩, rfl⟩

end Written

/-! ### The names of types stand in their order -/

/-- The tokens stand in every word of the language, in their order. -/
def Stands (xs : List Token) (L : Language Token) : Prop := ∀ ts ∈ L, xs.Sublist ts

namespace Stands

open Grammar

variable {xs ys : List Token} {L M : Language Token}

theorem nil (L : Language Token) : Stands [] L := fun ts _ => List.nil_sublist ts

theorem mono (h : Stands ys L) (hsub : xs.Sublist ys) : Stands xs L :=
  fun ts hts => hsub.trans (h ts hts)

theorem mul (hL : Stands xs L) (hM : Stands ys M) : Stands (xs ++ ys) (L * M) := by
  rintro _ ⟨u, hu, v, hv, rfl⟩
  exact (hL u hu).append (hM v hv)

theorem left (h : Stands xs L) (M : Language Token) : Stands xs (L * M) :=
  (h.mul (nil M)).mono (List.sublist_append_left xs [])

theorem right (L : Language Token) (h : Stands xs M) : Stands xs (L * M) := (nil L).mul h

theorem named (t : Token) : Stands [t] (named t) := by
  rintro _ ⟨_, ⟨rfl, -⟩, rfl⟩
  exact List.Sublist.refl _

theorem typeNamed (t : Token) : Stands [t] (typeNamed t) := fun _ h => h.2 ▸ List.filter_sublist

section Items

variable {α : Type} {spell : α → Language Token} {f : α → List Token} {l r m : Mark}

theorem prod (h : ∀ x, Stands (f x) (spell x)) (xs : List α) :
    Stands (xs.flatMap f) (xs.map spell).prod := by
  induction xs with
  | nil => exact nil _
  | cons x xs ih => exact (h x).mul ih

theorem between (h : ∀ x, Stands (f x) (spell x)) (xs : List α) :
    Stands (xs.flatMap f) (between l r (xs.map spell)) :=
  .right _ ((prod h xs).left _)

theorem betweenIfAny (h : ∀ x, Stands (f x) (spell x)) (xs : List α) :
    Stands (xs.flatMap f) (betweenIfAny l r (xs.map spell)) := by
  cases xs with
  | nil => exact nil _
  | cons x xs => exact between h (x :: xs)

end Items

theorem clause (lead : Language Token) (m : Mark) (ns : List Token) :
    Stands ns (clause lead m ns) := by
  cases ns with
  | nil => exact nil _
  | cons n ns =>
    have hnext := prod (fun t => .right (mark m) (named t)) ns
    rw [List.flatMap_singleton'] at hnext
    exact .right lead (.right _ ((named n).mul hnext))

end Stands

namespace Written

open Grammar

theorem Input.stands (v : Input) : Stands [v.type] v.words :=
  .right _ (.right _ (.right _ ((Stands.typeNamed v.type).left _)))

theorem stands_inputs {l r : Mark} (vs : List Input) :
    Stands ((firsts Input.key vs).map (·.type)) (betweenIfAny l r (vs.map Input.words)) := by
  have h : Stands (vs.flatMap fun v => [v.type]) (betweenIfAny l r (vs.map Input.words)) :=
    .betweenIfAny Input.stands vs
  rw [← List.map_eq_flatMap] at h
  exact h.mono ((firsts_sublist Input.key vs).map _)

theorem Field.stands (f : Field) : Stands f.typeNames f.words :=
  .right _ (.right _ ((stands_inputs f.arguments).mul
    (.right _ ((Stands.typeNamed f.type).left directives))))

theorem stands_fieldSet (is : List Token) (fs : List Field) :
    Stands (firsts (·.text) is ++ (firsts Field.key fs).flatMap Field.typeNames)
      (fieldSetWords is fs) := by
  have hinterfaces := (Stands.clause (word .implements) .amp is).mono (firsts_sublist (·.text) is)
  have hfields : Stands (fs.flatMap Field.typeNames)
      (betweenIfAny .lbrace .rbrace (fs.map Field.words)) := .betweenIfAny Field.stands fs
  have hfirsts := (firsts_sublist Field.key fs).flatMap Field.typeNames
  exact hinterfaces.mul (.right directives (hfields.mono hfirsts))

theorem Body.stands (b : Body) : Stands b.typeNames b.words := by
  cases b with
  | scalar | enum => exact .nil _
  | object is fs | interface is fs => exact stands_fieldSet is fs
  | union ms => exact .right _ (.clause _ _ ms)
  | input fs => exact .right _ (stands_inputs fs)

/-- The names of types that count stand in the statement in the order in which they are listed. -/
theorem stands (w : Written) : Stands w.typeNames w.words := by
  refine .right _ (.right _ ?_)
  cases w with
  | schema ops =>
    have hops : Stands (ops.flatMap fun t => [t])
        (between .lbrace .rbrace (ops.map operationWords)) :=
      .between (fun t => .right _ (.right _ (.named t))) ops
    rw [List.flatMap_singleton'] at hops
    exact .right _ hops
  | directive n args => exact .right _ (.right _ ((stands_inputs args).left _))
  | type n b => exact .right _ b.stands

end Written

end SchemaLang
