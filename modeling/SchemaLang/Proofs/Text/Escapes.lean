import Mathlib.Algebra.Group.Nat.Defs
import Mathlib.Data.List.Forall2
import Mathlib.Data.List.Induction
import Mathlib.Tactic.SplitIfs
import SchemaLang.Proofs.Text.Quoted

/-! Escapes between quotes, beside a decoder that takes them strictly. A body is cut into elements,
each of which stands for one character. Strictly taken, an escape by number has four digits, and
whatever else comes in their place is read as the replacement character. Reading agrees with that on
every element but one kind: it also takes fewer than four digits for a number, if a plus sign stands
in front of them or the body ends behind them. -/

namespace SchemaLang.Quoted

/-! ### Elements -/

/-- A piece of a body that stands for one character. -/
inductive Element where
  /-- A character that stands for itself. -/
  | plain (c : Char)
  /-- A backslash and the character behind it. -/
  | escaped (c : Char)
  /-- The escape `u` and what is taken along with it. -/
  | number (ds : List Char)
  /-- A backslash with nothing behind it. -/
  | lone
  deriving DecidableEq, Repr

/-- The elements of a body. The escape `u` takes four characters along, or as many as there are. -/
def elements : List Char → List Element
  | '\\' :: 'u' :: cs => .number (cs.take 4) :: elements (cs.drop 4)
  | '\\' :: c :: cs => .escaped c :: elements cs
  | ['\\'] => [.lone]
  | c :: cs => .plain c :: elements cs
  | [] => []
termination_by cs => cs.length
decreasing_by all_goals simp <;> omega

/-- The digits up to fifteen, each at the place that is its value. -/
def hexDigits : List Char :=
  ['0', '1', '2', '3', '4', '5', '6', '7', '8', '9', 'a', 'b', 'c', 'd', 'e', 'f']

/-- A hexadecimal digit, in either case. -/
def IsHexDigit (c : Char) : Prop := c.toLower ∈ hexDigits

instance (c : Char) : Decidable (IsHexDigit c) := inferInstanceAs (Decidable (_ ∈ _))

-- decided along the digits, however a statement about all characters may be decided
instance (ds : List Char) : Decidable (∀ d ∈ ds, IsHexDigit d) := List.decidableBAll _ ds

def digitValue (c : Char) : Nat := hexDigits.idxOf c.toLower

/-- The number that is written by digits. -/
def hexNumber (ds : List Char) : Nat := ds.foldl (fun n d => 16 * n + digitValue d) 0

/-- Between one and three digits. -/
def IsShort (ds : List Char) : Prop := ds ≠ [] ∧ ds.length < 4 ∧ ∀ d ∈ ds, IsHexDigit d

namespace Element

/-- The element as it is written. -/
def text : Element → List Char
  | plain c => [c]
  | escaped c => ['\\', c]
  | number ds => '\\' :: 'u' :: ds
  | lone => ['\\']

/-- The character that the element stands for, strictly taken. -/
def strict : Element → Char
  | plain c => c
  | escaped 'n' => '\n'
  | escaped 't' => '\t'
  | escaped 'r' => '\r'
  | escaped 'b' => '\x08'
  | escaped 'f' => '\x0c'
  | escaped c => c
  | number ds =>
    if ds.length = 4 ∧ ∀ d ∈ ds, IsHexDigit d then
      if 0xD800 ≤ hexNumber ds ∧ hexNumber ds ≤ 0xDFFF then replacement
      else Char.ofNat (hexNumber ds)
    else replacement
  | lone => '\\'

/-- The character that the element is read as. -/
def read : Element → Char
  | plain c => c
  | escaped c => unescapeChar c
  | number ds => (readHex ds).elim replacement charOf
  | lone => '\\'

/-- A number with too few digits that is read all the same. -/
def IsLax : Element → Prop
  | number ds => ∃ es, (ds = es ∨ ds = '+' :: es) ∧ IsShort es
  | plain _ | escaped _ | lone => False

end Element

/-- What each element is read as: what it strictly stands for, unless it is a number with too few
digits. -/
inductive Element.Reads : Element → Char → Prop
  | strict {e : Element} (h : ¬ e.IsLax) : Reads e e.strict
  | lax {ds es : List Char} (hds : ds = es ∨ ds = '+' :: es) (h : IsShort es) :
      Reads (.number ds) (Char.ofNat (hexNumber es))

theorem text_elements (body : List Char) : (elements body).flatMap Element.text = body := by
  fun_induction elements body <;> simp_all [Element.text]

theorem length_le_of_mem_elements {body ds : List Char} (h : .number ds ∈ elements body) :
    ds.length ≤ 4 := by
  fun_induction elements body with
  | case1 cs ih =>
    rcases List.mem_cons.mp h with heq | h
    · cases heq
      exact List.length_take_le 4 cs
    · exact ih h
  | case2 c cs hc ih => exact ih (List.mem_of_ne_of_mem (by simp) h)
  | case3 => exact absurd h (by simp)
  | case4 c cs hu he hl ih => exact ih (List.mem_of_ne_of_mem (by simp) h)
  | case5 => exact absurd h List.not_mem_nil

theorem decode_eq_map (body : List Char) : decode body = (elements body).map Element.read := by
  fun_induction elements body with
  | case1 cs ih =>
    rw [decode]
    simp [Element.read, ih]
  | case2 c cs hc ih =>
    rw [decode_escape hc, ih]
    rfl
  | case3 =>
    rw [decode]
    rfl
  | case4 c cs hu he hl ih =>
    have hc : c ≠ '\\' := by
      rintro rfl
      cases cs with
      | nil => exact hl rfl rfl
      | cons d ds => exact he d ds rfl rfl
    rw [decode_cons hc, ih]
    rfl
  | case5 =>
    rw [decode]
    rfl

/-! ### Digits -/

/-- Digits are ASCII characters. -/
theorem IsHexDigit.toNat_lt {c : Char} (h : IsHexDigit c) : c.toNat < 128 := by
  by_cases hupper : 'A'.val ≤ c.val ∧ c.val ≤ 'Z'.val
  · have hle : c.toNat ≤ 90 := UInt32.le_iff_toNat_le.mp hupper.2
    omega
  · have hlower : c.toLower = c := dif_neg hupper
    have hall : ∀ d ∈ hexDigits, d.toNat < 128 := by simp [hexDigits]
    exact hall c (hlower ▸ h)

theorem hexValue?_eq (c : Char) :
    hexValue? c = if IsHexDigit c then some (digitValue c) else none := by
  have hsmall : ∀ n < 128, hexValue? (Char.ofNat n) =
      if IsHexDigit (Char.ofNat n) then some (digitValue (Char.ofNat n)) else none := by
    decide +kernel
  by_cases hc : c.toNat < 128
  · have h := hsmall c.toNat hc
    rwa [Char.ofNat_toNat] at h
  · rw [if_neg fun h => hc h.toNat_lt, hexValue?]
    split_ifs <;> first | omega | rfl

theorem readDigits_eq (ds : List Char) :
    readDigits ds = if ∀ d ∈ ds, IsHexDigit d then some (hexNumber ds) else none := by
  rw [readDigits, hexNumber]
  generalize 0 = n
  induction ds generalizing n with
  | nil => simp
  | cons d ds ih =>
    rw [List.foldlM_cons, List.foldl_cons, hexValue?_eq]
    by_cases hd : IsHexDigit d
    · rw [if_pos hd]
      simpa [hd] using ih _
    · rw [if_neg hd]
      simp [hd]

theorem digitValue_lt {c : Char} (h : IsHexDigit c) : digitValue c < 16 :=
  List.idxOf_lt_length_of_mem h

theorem hexNumber_lt {ds : List Char} (h : ∀ d ∈ ds, IsHexDigit d) :
    hexNumber ds < 16 ^ ds.length := by
  induction ds using List.reverseRecOn with
  | nil => decide
  | append_singleton ds d ih =>
    have hds := ih fun e he => h e (List.mem_append_left _ he)
    have hd := digitValue_lt (h d (List.mem_append_right _ List.mem_cons_self))
    have hsnoc : hexNumber (ds ++ [d]) = 16 * hexNumber ds + digitValue d := by
      rw [hexNumber, List.foldl_append]
      rfl
    rw [hsnoc, List.length_append, List.length_singleton, Nat.pow_succ]
    omega

theorem not_isHexDigit_plus : ¬ IsHexDigit '+' := by decide +kernel

/-! ### Numbers -/

theorem readHex_signed {ds : List Char} (h : ds ≠ []) : readHex ('+' :: ds) = readDigits ds := by
  rw [readHex, if_neg h]

theorem readHex_of_ne {d : Char} (h : d ≠ '+') (ds : List Char) :
    readHex (d :: ds) = readDigits (d :: ds) := by
  unfold readHex
  split
  next heq => cases heq
  next heq => exact absurd (List.cons.inj heq).1 h
  next => rfl

/-- A number that is read: digits, with a plus sign in front of them or without. -/
theorem readHex_eq_some_iff {ds : List Char} {n : Nat} : readHex ds = some n ↔
    ∃ es, (ds = es ∨ ds = '+' :: es) ∧ es ≠ [] ∧ (∀ d ∈ es, IsHexDigit d) ∧ hexNumber es = n := by
  constructor
  · intro h
    have hread : ∃ es, (ds = es ∨ ds = '+' :: es) ∧ es ≠ [] ∧ readDigits es = some n := by
      revert h
      fun_cases readHex ds with
      | case1 => nofun
      | case2 => nofun
      | case3 ds hds => exact fun h => ⟨ds, .inr rfl, hds, h⟩
      | case4 _ hne => exact fun h => ⟨ds, .inl rfl, hne, h⟩
    obtain ⟨es, hds, hne, hes⟩ := hread
    rw [readDigits_eq] at hes
    obtain ⟨hdigits, heq⟩ := Option.ite_none_right_eq_some.mp hes
    exact ⟨es, hds, hne, hdigits, Option.some.inj heq⟩
  · rintro ⟨es, rfl | rfl, hne, hes, rfl⟩
    · obtain ⟨d, es, rfl⟩ := List.exists_cons_of_ne_nil hne
      have hd : d ≠ '+' := fun h => not_isHexDigit_plus (h ▸ hes d List.mem_cons_self)
      rw [readHex_of_ne hd, readDigits_eq, if_pos hes]
    · rw [readHex_signed hne, readDigits_eq, if_pos hes]

theorem charOf_eq {n : Nat} (h : n < 0x10000) :
    charOf n = if 0xD800 ≤ n ∧ n ≤ 0xDFFF then replacement else Char.ofNat n := by
  rw [charOf]
  unfold Nat.isValidChar
  split_ifs <;> first | omega | rfl

theorem IsShort.hexNumber_lt {ds : List Char} (h : IsShort ds) : hexNumber ds < 0x1000 := by
  obtain ⟨-, hlen, hdigits⟩ := h
  have hpow : 16 ^ ds.length ≤ 16 ^ 3 := Nat.pow_le_pow_right (by decide) (by omega)
  exact Nat.lt_of_lt_of_le (Quoted.hexNumber_lt hdigits) hpow

theorem ofNat_ne_replacement {n : Nat} (h : n < 0x1000) : Char.ofNat n ≠ replacement := by
  intro heq
  rw [Char.ofNat, dif_pos (.inl (by omega))] at heq
  have hnat : n = 0xFFFD := congrArg Char.toNat heq
  omega

namespace Element

variable {ds es : List Char}

theorem read_lax (hds : ds = es ∨ ds = '+' :: es) (h : IsShort es) :
    (number ds).read = Char.ofNat (hexNumber es) := by
  have hlt := h.hexNumber_lt
  have hread := readHex_eq_some_iff.mpr ⟨es, hds, h.1, h.2.2, rfl⟩
  rw [read, hread, Option.elim_some, charOf_eq (by omega), if_neg (by omega)]

theorem strict_lax (hds : ds = es ∨ ds = '+' :: es) (h : IsShort es) :
    (number ds).strict = replacement := by
  obtain ⟨-, hlen, -⟩ := h
  refine if_neg fun ⟨hfour, hdigits⟩ => ?_
  rcases hds with rfl | rfl
  · omega
  · exact not_isHexDigit_plus (hdigits '+' List.mem_cons_self)

theorem read_number (hlen : ds.length ≤ 4) (h : ¬ (number ds).IsLax) :
    (number ds).read = (number ds).strict := by
  cases hread : readHex ds with
  | none =>
    have hfour : ¬ (ds.length = 4 ∧ ∀ d ∈ ds, IsHexDigit d) := by
      rintro ⟨hfour, hdigits⟩
      have hne : ds ≠ [] := List.ne_nil_of_length_eq_add_one hfour
      rw [readHex_eq_some_iff.mpr ⟨ds, .inl rfl, hne, hdigits, rfl⟩] at hread
      cases hread
    rw [read, hread, strict, if_neg hfour, Option.elim_none]
  | some n =>
    obtain ⟨es, hds, hne, hdigits, rfl⟩ := readHex_eq_some_iff.mp hread
    have hlong : ¬ es.length < 4 := fun hlt => h ⟨es, hds, hne, hlt, hdigits⟩
    rcases hds with rfl | rfl
    · have hfour : ds.length = 4 := by omega
      have hlt := hexNumber_lt hdigits
      rw [hfour] at hlt
      rw [strict, if_pos ⟨hfour, hdigits⟩, read, hread, Option.elim_some, charOf_eq hlt]
    · rw [List.length_cons] at hlen
      omega

theorem unescapeChar_eq (c : Char) : unescapeChar c = (escaped c).strict := by
  by_cases hc : c ∈ ['n', 't', 'r', 'b', 'f']
  · simp only [List.mem_cons, List.not_mem_nil, or_false] at hc
    rcases hc with rfl | rfl | rfl | rfl | rfl <;> rfl
  · have hnone : letterEscapes.lookup c = none := by
      rw [List.lookup_eq_none_iff]
      simpa [letterEscapes] using hc
    rw [unescapeChar, hnone, Option.getD_none]
    simp only [List.mem_cons, List.not_mem_nil, or_false, not_or] at hc
    obtain ⟨hn, ht, hr, hb, hf⟩ := hc
    rw [strict]
    all_goals assumption

/-- An element that is no number with too few digits is read as what it strictly stands for. -/
theorem read_eq_strict {e : Element} (hlen : ∀ ds, e = number ds → ds.length ≤ 4)
    (h : ¬ e.IsLax) : e.read = e.strict := by
  cases e with
  | plain c => rfl
  | escaped c => exact unescapeChar_eq c
  | number ds => exact read_number (hlen ds rfl) h
  | lone => rfl

theorem read_ne_strict {e : Element} (h : e.IsLax) : e.read ≠ e.strict := by
  cases e with
  | number ds =>
    obtain ⟨es, hds, hes⟩ := h
    rw [read_lax hds hes, strict_lax hds hes]
    exact ofNat_ne_replacement hes.hexNumber_lt
  | plain c => exact h.elim
  | escaped c => exact h.elim
  | lone => exact h.elim

theorem reads_read {e : Element} (hlen : ∀ ds, e = number ds → ds.length ≤ 4) :
    e.Reads e.read := by
  by_cases h : e.IsLax
  · cases e with
    | number ds =>
      obtain ⟨es, hds, hes⟩ := h
      rw [read_lax hds hes]
      exact .lax hds hes
    | plain c => exact h.elim
    | escaped c => exact h.elim
    | lone => exact h.elim
  · rw [read_eq_strict hlen h]
    exact .strict h

end Element

/-! ### Bodies -/

/-- Reading a body element by element. Nothing of the body is left out; each element is read as what
it strictly stands for, unless it is a number of one to three digits, with or without a plus sign in
front, which is read as that number; so reading agrees with the strict decoder exactly on the bodies
without such an element. -/
theorem decode_elements (body : List Char) :
    (elements body).flatMap Element.text = body ∧
      List.Forall₂ Element.Reads (elements body) (decode body) ∧
      (decode body = (elements body).map Element.strict ↔ ∀ e ∈ elements body, ¬ e.IsLax) := by
  have hlen : ∀ e ∈ elements body, ∀ ds, e = .number ds → ds.length ≤ 4 := by
    rintro e he ds rfl
    exact length_le_of_mem_elements he
  rw [decode_eq_map]
  refine ⟨text_elements body, ?_, ?_⟩
  · rw [List.forall₂_map_right_iff, List.forall₂_same]
    exact fun e he => Element.reads_read (hlen e he)
  · rw [List.map_inj_left]
    refine forall₂_congr fun e he => ⟨fun heq hlax => ?_, Element.read_eq_strict (hlen e he)⟩
    exact Element.read_ne_strict hlax heq

/-- Three digits behind a plus sign, which are read as a number. -/
example : decode ['\\', 'u', '+', '0', '4', '1'] = ['A'] := by
  rw [decode_eq_map]
  decide +kernel

end SchemaLang.Quoted
