import Mathlib.Computability.Language
import SchemaLang.Proofs.Text.Tiling

/-! The languages of the kinds of tokens. They are put together from single characters by unions,
products and stars; only where a block string ends is told by reading it from left to right. What
is cut from a text as a token of some kind lies in the language of that kind, and a text of that
language is one token of that kind. -/

namespace SchemaLang

open scoped Computability

/-! ### Languages -/

namespace Lexicon

/-- One character with the property `p`. -/
def one (p : Char → Prop) : Language Char := {w | ∃ c, p c ∧ w = [c]}

def char (c : Char) : Language Char := one (· = c)

/-- A word of `L`, or nothing. -/
def optional (L : Language Char) : Language Char := L + 1

def IsLetter (c : Char) : Prop := 'A' ≤ c ∧ c ≤ 'Z' ∨ 'a' ≤ c ∧ c ≤ 'z' ∨ c = '_'

def IsDigit (c : Char) : Prop := '0' ≤ c ∧ c ≤ '9'

/-- Letters and digits, a letter first. -/
def name : Language Char := one IsLetter * (one fun c => IsLetter c ∨ IsDigit c)∗

def digits : Language Char := one IsDigit * (one IsDigit)∗

/-- A zero, or digits that begin with another one. -/
def unsigned : Language Char := char '0' + one (fun c => '1' ≤ c ∧ c ≤ '9') * (one IsDigit)∗

def integer : Language Char := optional (char '-') * unsigned

def fraction : Language Char := char '.' * digits

def exponent : Language Char :=
  (char 'e' + char 'E') * (optional (char '+' + char '-') * digits)

def float : Language Char := integer * (fraction + exponent + fraction * exponent)

/-- A character that is no quote, backslash or line feed, or any character with a backslash before
it. -/
def quotedChar : Language Char :=
  one (fun c => c ≠ '"' ∧ c ≠ '\n' ∧ c ≠ '\\') + char '\\' * one fun _ => True

def quoted : Language Char := char '"' * (quotedChar∗ * char '"')

/-- The rest of a block string after its opening quotes, read from left to right: a backslash and
triple quotes are read as one, and the first triple quotes besides are the end. -/
inductive EndsBlock : List Char → Prop
  | close : EndsBlock Block.tripleQuote
  | escaped {cs : List Char} (h : EndsBlock cs) : EndsBlock (('\\' :: Block.tripleQuote) ++ cs)
  | char {c : Char} {cs : List Char} (hclose : ¬ Block.tripleQuote <+: c :: cs)
      (hescaped : ¬ '\\' :: Block.tripleQuote <+: c :: cs) (h : EndsBlock cs) : EndsBlock (c :: cs)

def block : Language Char := {w | ∃ cs, EndsBlock cs ∧ w = Block.tripleQuote ++ cs}

end Lexicon

open Lexicon in
/-- The texts of tokens of a kind. There are none for the kinds that are no words of a language. -/
def TokenKind.language : TokenKind → Language Char
  | .eof | .error => 0
  | .ident => {w | w ∈ name ∧ ∀ k : Keyword, w ≠ k.text.toList}
  | .int => integer
  | .float => Lexicon.float
  | .string => quoted
  | .blockString => block
  | .keyword k => {k.text.toList}
  | .mark m => {m.text.toList}

namespace Lexicon

variable {p : Char → Prop} {L : Language Char} {c : Char} {w : List Char}

theorem mem_one : w ∈ one p ↔ ∃ c, p c ∧ w = [c] := Iff.rfl

theorem mem_char : w ∈ char c ↔ w = [c] := by
  rw [char, mem_one, exists_eq_left]

theorem mem_optional : w ∈ optional L ↔ w ∈ L ∨ w = [] := by
  rw [optional, Language.mem_add, Language.mem_one]

theorem mem_kstar_one : w ∈ (one p)∗ ↔ ∀ c ∈ w, p c := by
  rw [Language.mem_kstar]
  constructor
  · rintro ⟨ws, rfl, hws⟩ c hc
    obtain ⟨v, hv, hc⟩ := List.mem_flatten.mp hc
    obtain ⟨d, hd, rfl⟩ := hws v hv
    rwa [List.mem_singleton.mp hc]
  · intro h
    refine ⟨w.map fun c => [c], ?_, ?_⟩
    · rw [← List.flatMap_def, List.flatMap_singleton']
    · exact List.forall_mem_map.mpr fun c hc => ⟨c, h c hc, rfl⟩

theorem mem_one_mul : w ∈ one p * L ↔ ∃ c cs, w = c :: cs ∧ p c ∧ cs ∈ L := by
  rw [Language.mem_mul]
  constructor
  · rintro ⟨-, ⟨c, hc, rfl⟩, cs, hcs, rfl⟩
    exact ⟨c, cs, rfl, hc, hcs⟩
  · rintro ⟨c, cs, rfl, hc, hcs⟩
    exact ⟨[c], ⟨c, hc, rfl⟩, cs, hcs, rfl⟩

theorem isDigit_iff : IsDigit c ↔ c.isDigit = true := by
  simp [IsDigit, Char.isDigit, Char.le_def]

theorem isLetter_iff : IsLetter c ↔ Lexeme.isNameStart c = true := by
  have hupper : c.isUpper = decide ('A' ≤ c ∧ c ≤ 'Z') := rfl
  have hlower : c.isLower = (decide ('a' ≤ c) && decide (c ≤ 'z')) := rfl
  have halpha : c.isAlpha = (c.isUpper || c.isLower) := rfl
  simp [IsLetter, Lexeme.isNameStart, halpha, hupper, hlower, or_assoc]

theorem isDigit_of_ne_zero_iff : '1' ≤ c ∧ c ≤ '9' ↔ c.isDigit = true ∧ c ≠ '0' := by
  have hzero : c ≠ '0' ↔ c.val.toNat ≠ '0'.val.toNat := by
    rw [ne_eq, ne_eq, Char.ext_iff, UInt32.toNat_inj]
  have hbounds : '0'.val.toNat = 48 ∧ '1'.val.toNat = 49 := ⟨rfl, rfl⟩
  rw [← isDigit_iff, IsDigit, hzero]
  simp only [Char.le_def, UInt32.le_iff_toNat_le]
  omega

theorem mem_digits : w ∈ digits ↔ w ≠ [] ∧ ∀ c ∈ w, c.isDigit = true := by
  simp only [digits, mem_one_mul, mem_kstar_one, isDigit_iff]
  constructor
  · rintro ⟨c, cs, rfl, hc, hcs⟩
    exact ⟨List.cons_ne_nil c cs, List.forall_mem_cons.mpr ⟨hc, hcs⟩⟩
  · rintro ⟨hne, h⟩
    obtain ⟨c, cs, rfl⟩ := List.exists_cons_of_ne_nil hne
    obtain ⟨hc, hcs⟩ := List.forall_mem_cons.mp h
    exact ⟨c, cs, rfl, hc, hcs⟩

theorem mem_unsigned : w ∈ unsigned ↔
    w = ['0'] ∨ w ∈ digits ∧ ∀ c ∈ w.head?, c ≠ '0' := by
  simp only [unsigned, Language.mem_add, mem_char, mem_one_mul, mem_kstar_one, isDigit_iff,
    isDigit_of_ne_zero_iff, mem_digits]
  refine or_congr_right ⟨?_, ?_⟩
  · rintro ⟨c, cs, rfl, ⟨hc, hne⟩, hcs⟩
    refine ⟨⟨List.cons_ne_nil c cs, List.forall_mem_cons.mpr ⟨hc, hcs⟩⟩, ?_⟩
    rintro d ⟨⟩
    exact hne
  · rintro ⟨⟨hne, h⟩, hhead⟩
    obtain ⟨c, cs, rfl⟩ := List.exists_cons_of_ne_nil hne
    obtain ⟨hc, hcs⟩ := List.forall_mem_cons.mp h
    exact ⟨c, cs, rfl, ⟨hc, hhead c rfl⟩, hcs⟩

theorem exists_cons_of_unsigned (h : w ∈ unsigned) : ∃ c cs, w = c :: cs ∧ c.isDigit = true := by
  obtain rfl | ⟨hds, -⟩ := mem_unsigned.mp h
  · exact ⟨'0', [], rfl, rfl⟩
  · obtain ⟨hne, hdigit⟩ := mem_digits.mp hds
    obtain ⟨c, cs, rfl⟩ := List.exists_cons_of_ne_nil hne
    exact ⟨c, cs, rfl, hdigit c List.mem_cons_self⟩

theorem mem_name : w ∈ name ↔
    (∃ c ∈ w.head?, Lexeme.isNameStart c = true) ∧ w.all Lexeme.isNameChar = true := by
  have hchar : ∀ c, IsLetter c ∨ IsDigit c ↔ Lexeme.isNameChar c = true := by
    intro c
    rw [isLetter_iff, isDigit_iff]
    simp only [Lexeme.isNameStart, Lexeme.isNameChar, Char.isAlphanum, Bool.or_eq_true]
    tauto
  simp only [name, mem_one_mul, mem_kstar_one, hchar]
  simp only [isLetter_iff]
  constructor
  · rintro ⟨c, cs, rfl, hc, hcs⟩
    refine ⟨⟨c, rfl, hc⟩, List.all_eq_true.mpr (List.forall_mem_cons.mpr ⟨?_, hcs⟩)⟩
    exact Lexeme.isNameChar_of_isNameStart hc
  · rintro ⟨⟨c, hhead, hc⟩, hall⟩
    obtain ⟨cs, rfl⟩ := List.head?_eq_some_iff.mp hhead
    exact ⟨c, cs, rfl, hc, (List.forall_mem_cons.mp (List.all_eq_true.mp hall)).2⟩

theorem mem_char_mul : w ∈ char c * L ↔ ∃ cs, w = c :: cs ∧ cs ∈ L := by
  rw [char, mem_one_mul]
  constructor
  · rintro ⟨-, cs, rfl, rfl, hcs⟩
    exact ⟨cs, rfl, hcs⟩
  · rintro ⟨cs, rfl, hcs⟩
    exact ⟨c, cs, rfl, rfl, hcs⟩

theorem append_mem_kstar {v : List Char} (hv : v ∈ L) (hw : w ∈ L∗) : v ++ w ∈ L∗ := by
  rw [Language.mem_kstar] at hw ⊢
  obtain ⟨ws, rfl, hws⟩ := hw
  exact ⟨v :: ws, rfl, List.forall_mem_cons.mpr ⟨hv, hws⟩⟩

theorem mem_fraction : w ∈ fraction ↔ ∃ ds, w = '.' :: ds ∧ ds ∈ digits := by
  rw [fraction, mem_char_mul]

theorem mem_quotedChar : w ∈ quotedChar ↔
    (∃ c, (c ≠ '"' ∧ c ≠ '\n' ∧ c ≠ '\\') ∧ w = [c]) ∨ ∃ c, w = ['\\', c] := by
  rw [quotedChar, Language.mem_add, mem_one, mem_char_mul]
  refine or_congr_right ⟨?_, ?_⟩
  · rintro ⟨-, rfl, c, -, rfl⟩
    exact ⟨c, rfl⟩
  · rintro ⟨c, rfl⟩
    exact ⟨[c], rfl, c, True.intro, rfl⟩

theorem mem_quoted : w ∈ quoted ↔ ∃ cs ∈ quotedChar∗, w = '"' :: (cs ++ ['"']) := by
  rw [quoted, mem_char_mul]
  simp only [Language.mem_mul, mem_char]
  constructor
  · rintro ⟨-, rfl, cs, hcs, -, rfl, rfl⟩
    exact ⟨cs, hcs, rfl⟩
  · rintro ⟨cs, hcs, rfl⟩
    exact ⟨cs ++ ['"'], rfl, cs, hcs, ['"'], rfl, rfl⟩

theorem mem_sign : w ∈ optional (char '+' + char '-') ↔ w = [] ∨ w = ['+'] ∨ w = ['-'] := by
  rw [mem_optional, Language.mem_add, mem_char, mem_char, or_comm]

theorem mem_exponent : w ∈ exponent ↔ ∃ c s ds, w = c :: (s ++ ds) ∧ (c = 'e' ∨ c = 'E') ∧
    (s = [] ∨ s = ['+'] ∨ s = ['-']) ∧ ds ∈ digits := by
  simp only [exponent, Language.mem_mul, Language.mem_add, mem_char, mem_sign]
  constructor
  · rintro ⟨-, rfl | rfl, -, ⟨s, hs, ds, hds, rfl⟩, rfl⟩
    · exact ⟨'e', s, ds, rfl, .inl rfl, hs, hds⟩
    · exact ⟨'E', s, ds, rfl, .inr rfl, hs, hds⟩
  · rintro ⟨c, s, ds, rfl, hc, hs, hds⟩
    refine ⟨[c], ?_, s ++ ds, ⟨s, hs, ds, hds, rfl⟩, rfl⟩
    rcases hc with rfl | rfl
    · exact .inl rfl
    · exact .inr rfl

theorem mem_optional_minus : w ∈ optional (char '-') ↔ w = ['-'] ∨ w = [] := by
  rw [mem_optional, mem_char]

theorem mem_optional_fraction :
    w ∈ optional fraction ↔ (∃ ds, w = '.' :: ds ∧ ds ∈ digits) ∨ w = [] := by
  rw [mem_optional, mem_fraction]

theorem mem_optional_exponent : w ∈ optional exponent ↔
    (∃ c s ds, w = c :: (s ++ ds) ∧ (c = 'e' ∨ c = 'E') ∧
      (s = [] ∨ s = ['+'] ∨ s = ['-']) ∧ ds ∈ digits) ∨ w = [] := by
  rw [mem_optional, mem_exponent]

/-- An integer with a fraction and an exponent behind it, either of which may be missing. -/
structure IsNumber (w m i f e : List Char) : Prop where
  eq : w = m ++ i ++ f ++ e
  minus : m ∈ optional (char '-')
  integer : i ∈ unsigned
  fraction : f ∈ optional Lexicon.fraction
  exponent : e ∈ optional Lexicon.exponent

theorem mem_integer : w ∈ integer ↔ ∃ m i, IsNumber w m i [] [] := by
  rw [integer, Language.mem_mul]
  constructor
  · rintro ⟨m, hm, i, hi, rfl⟩
    exact ⟨m, i, by simp, hm, hi, mem_optional.mpr (.inr rfl), mem_optional.mpr (.inr rfl)⟩
  · rintro ⟨m, i, rfl, hm, hi, -, -⟩
    exact ⟨m, hm, i, hi, by simp⟩

theorem mem_fraction_exponent : w ∈ fraction + exponent + fraction * exponent ↔
    ∃ f e, w = f ++ e ∧ f ∈ optional fraction ∧ e ∈ optional exponent ∧ ¬ (f = [] ∧ e = []) := by
  have hf : [] ∉ fraction := fun h => by simpa using mem_fraction.mp h
  have he : [] ∉ exponent := fun h => by simpa using mem_exponent.mp h
  simp only [Language.mem_add, Language.mem_mul, mem_optional]
  constructor
  · rintro ((h | h) | ⟨f, hf', e, he', rfl⟩)
    · exact ⟨w, [], (List.append_nil w).symm, .inl h, .inr rfl, fun h' => hf (h'.1 ▸ h)⟩
    · exact ⟨[], w, rfl, .inr rfl, .inl h, fun h' => he (h'.2 ▸ h)⟩
    · exact ⟨f, e, rfl, .inl hf', .inl he', fun h' => hf (h'.1 ▸ hf')⟩
  · rintro ⟨f, e, rfl, hf' | rfl, he' | rfl, hne⟩
    · exact .inr ⟨f, hf', e, he', rfl⟩
    · rw [List.append_nil]
      exact .inl (.inl hf')
    · exact .inl (.inr he')
    · exact absurd ⟨rfl, rfl⟩ hne

theorem mem_float : w ∈ float ↔ ∃ m i f e, IsNumber w m i f e ∧ ¬ (f = [] ∧ e = []) := by
  simp only [float, Language.mem_mul, mem_integer, mem_fraction_exponent]
  constructor
  · rintro ⟨-, ⟨m, i, rfl, hm, hi, -, -⟩, -, ⟨f, e, rfl, hf, he, hne⟩, rfl⟩
    exact ⟨m, i, f, e, ⟨by simp, hm, hi, hf, he⟩, hne⟩
  · rintro ⟨m, i, f, e, ⟨rfl, hm, hi, hf, he⟩, hne⟩
    refine ⟨m ++ i, ⟨m, i, by simp, hm, hi, ?_, ?_⟩, f ++ e, ⟨f, e, rfl, hf, he, hne⟩, by simp⟩
    all_goals exact mem_optional.mpr (.inr rfl)

end Lexicon

/-! ### Numbers -/

namespace Lexeme

open Lexicon

variable {cs rest : List Char}

theorem mem_digits_splitDigits (h : (splitDigits cs).1 ≠ []) : (splitDigits cs).1 ∈ digits :=
  mem_digits.mpr ⟨h, isDigit_of_mem_splitDigits⟩

theorem mem_splitMinus (cs : List Char) : (splitMinus cs).1 ∈ optional (Lexicon.char '-') := by
  rw [mem_optional_minus]
  fun_cases splitMinus cs with
  | case1 cs => exact .inl rfl
  | case2 hne => exact .inr rfl

theorem mem_splitInteger (h : (splitInteger cs).1 ≠ []) : (splitInteger cs).1 ∈ unsigned := by
  rw [mem_unsigned]
  revert h
  fun_cases splitInteger cs with
  | case1 cs => exact fun _ => .inl rfl
  | case2 _ hne =>
    intro h
    refine .inr ⟨mem_digits_splitDigits h, fun c hc => ?_⟩
    have hhead : c ∈ cs.head? := by
      rw [← splitDigits_append cs, List.head?_append, hc]
      rfl
    exact ne_of_forall_ne_cons hne c hhead

theorem mem_splitFraction (cs : List Char) : (splitFraction cs).1 ∈ optional fraction := by
  rw [mem_optional_fraction]
  fun_cases splitFraction cs with
  | case1 cs hds => exact .inr rfl
  | case2 cs hds => exact .inl ⟨_, rfl, mem_digits_splitDigits hds⟩
  | case3 hne => exact .inr rfl

theorem mem_splitExponent (h : (splitExponent cs).1 = [] ∨
    ((splitExponent cs).1.getLast?.map Char.isDigit) = some true) :
    (splitExponent cs).1 ∈ optional exponent := by
  rw [mem_optional_exponent]
  revert h
  fun_cases splitExponent cs with
  | case1 => exact fun _ => .inr rfl
  | case2 c cs hc sign afterSign hsign digits back hdigits =>
    intro h
    have hs := splitSign_cases cs
    have hds := @mem_digits_splitDigits afterSign
    rw [hsign] at hs
    rw [hdigits] at hds
    have hlast := h.resolve_left (List.cons_ne_nil _ _)
    exact .inl ⟨c, sign, digits, rfl, hc, hs, hds (digits_ne_nil hc hs hlast)⟩
  | case3 c cs hc => exact fun _ => .inr rfl

theorem noDigit_append_fraction {f : List Char} (hf : f ∈ optional fraction) (h : NoDigit rest) :
    NoDigit (f ++ rest) := by
  refine forall_head?_append (fun c hc => ?_) h
  obtain ⟨ds, rfl, -⟩ | rfl := mem_optional_fraction.mp hf
  · cases hc
    decide
  · cases hc

theorem head_exponent {e : List Char} (he : e ∈ optional exponent) :
    ∀ c ∈ e.head?, c = 'e' ∨ c = 'E' := by
  obtain ⟨c, s, ds, rfl, hc, -⟩ | rfl := mem_optional_exponent.mp he
  · rintro d ⟨⟩
    exact hc
  · nofun

theorem splitDigits_digits {ds : List Char} (hds : ds ∈ digits) (h : NoDigit rest) :
    splitDigits (ds ++ rest) = (ds, rest) := by
  have htake : ds.takeWhile Char.isDigit = ds :=
    List.takeWhile_eq_self_iff.mpr (mem_digits.mp hds).2
  have hstable := splitDigits_stable h ds
  rwa [splitDigits.eq_def ds, htake] at hstable

theorem splitMinus_minus {m : List Char} (hm : m ∈ optional (Lexicon.char '-'))
    (h : ∀ c ∈ rest.head?, c ≠ '-') : splitMinus (m ++ rest) = (m, rest) := by
  obtain rfl | rfl := mem_optional_minus.mp hm
  · rfl
  · exact splitMinus_of_ne h

theorem splitInteger_unsigned {i : List Char} (hi : i ∈ unsigned) (h : NoDigit rest) :
    splitInteger (i ++ rest) = (i, rest) := by
  obtain rfl | ⟨hds, hzero⟩ := mem_unsigned.mp hi
  · rfl
  · rw [splitInteger_of_ne, splitDigits_digits hds h]
    refine forall_head?_append hzero ?_
    rintro c hc rfl
    exact absurd (h '0' hc) (by decide)

theorem splitFraction_fraction {f : List Char} (hf : f ∈ optional fraction) (h : NoDigit rest)
    (hp : ∀ c ∈ rest.head?, c ≠ '.') : splitFraction (f ++ rest) = (f, rest) := by
  obtain ⟨ds, rfl, hds⟩ | rfl := mem_optional_fraction.mp hf
  · rw [List.cons_append, splitFraction, splitDigits_digits hds h, if_neg (mem_digits.mp hds).1]
  · exact splitFraction_of_ne hp

theorem splitExponent_exponent {e : List Char} (he : e ∈ optional exponent) :
    splitExponent e = (e, []) := by
  obtain ⟨c, s, ds, rfl, hc, hs, hds⟩ | rfl := mem_optional_exponent.mp he
  · obtain ⟨hne, hdigit⟩ := mem_digits.mp hds
    obtain ⟨d, ds, rfl⟩ := List.exists_cons_of_ne_nil hne
    have hsign : splitSign (s ++ d :: ds) = (s, d :: ds) := by
      rcases hs with rfl | rfl | rfl
      · refine splitSign_of_ne ?_
        rintro x ⟨⟩
        have hd := hdigit d List.mem_cons_self
        constructor
        all_goals
          rintro rfl
          exact absurd hd (by decide)
      · rfl
      · rfl
    have hdigits := splitDigits_digits hds Delimited.nil.noDigit
    rw [List.append_nil] at hdigits
    rw [splitExponent, if_pos hc, hsign]
    dsimp only
    rw [hdigits]
  · rfl

theorem numberKind_of_exponent {f e : List Char} (he : e ∈ optional exponent) :
    numberKind f e = if f = [] ∧ e = [] then .int else .float := by
  obtain ⟨c, s, ds, rfl, -, -, hds⟩ | rfl := mem_optional_exponent.mp he
  · obtain ⟨hne, hdigit⟩ := mem_digits.mp hds
    have hlast : (c :: (s ++ ds)).getLast?.map Char.isDigit = some true := by
      rw [← List.cons_append, List.getLast?_append_of_ne_nil _ hne,
        List.getLast?_eq_some_getLast hne, Option.map_some, hdigit _ (List.getLast_mem hne)]
    rw [numberKind, if_neg (List.cons_ne_nil _ _), if_pos hlast, if_neg]
    exact fun h => List.cons_ne_nil _ _ h.2
  · simp [numberKind]

/-- A number that is no error is put together as one. -/
theorem isNumber_number (h : (number cs).kind ≠ .error) :
    ∃ m i f e, IsNumber (number cs).text m i f e ∧ (number cs).kind = numberKind f e := by
  unfold number at h ⊢
  dsimp only at h ⊢
  split at h
  next => exact absurd rfl h
  next hi =>
    rw [if_neg hi]
    exact ⟨_, _, _, _, ⟨rfl, mem_splitMinus cs, mem_splitInteger hi, mem_splitFraction _,
      mem_splitExponent (exponent_of_numberKind h)⟩, rfl⟩

/-- What is put together as a number is read as one number. -/
theorem number_of_isNumber {w m i f e : List Char} (h : IsNumber w m i f e) :
    number w = ⟨numberKind f e, w, []⟩ := by
  obtain ⟨rfl, hm, hi, hf, he⟩ := h
  -- from the last part on, what follows a part does not begin as the part may go on
  have hletter := head_exponent he
  have hfrac : splitFraction (f ++ e) = (f, e) := by
    refine splitFraction_fraction hf (fun c hc => ?_) fun c hc => ?_
    all_goals rcases hletter c hc with rfl | rfl <;> decide
  have hint : splitInteger (i ++ (f ++ e)) = (i, f ++ e) := by
    refine splitInteger_unsigned hi (noDigit_append_fraction hf fun c hc => ?_)
    rcases hletter c hc with rfl | rfl <;> decide
  obtain ⟨d, ds, hcons, hd⟩ := exists_cons_of_unsigned hi
  have hminus : splitMinus (m ++ (i ++ (f ++ e))) = (m, i ++ (f ++ e)) := by
    refine splitMinus_minus hm ?_
    rw [hcons]
    rintro c ⟨⟩ rfl
    exact absurd hd (by decide)
  have hne : i ≠ [] := hcons ▸ List.cons_ne_nil d ds
  simp only [number, List.append_assoc, hminus, hint, hfrac, splitExponent_exponent he, if_neg hne]

/-! ### Strings -/

/-- Every text begins with characters of a string, behind which a quote or a line feed stands, or at
most a backslash that no character follows. -/
theorem exists_quotedChars (cs : List Char) : ∃ ds ∈ quotedChar∗, ∃ back, cs = ds ++ back ∧
    (back = [] ∨ back = ['\\'] ∨ (∃ es, back = '"' :: es) ∨ ∃ es, back = '\n' :: es) := by
  fun_induction quotedTail cs with
  | case1 => exact ⟨[], Language.nil_mem_kstar _, [], rfl, .inl rfl⟩
  | case2 cs => exact ⟨[], Language.nil_mem_kstar _, '"' :: cs, rfl, .inr (.inr (.inl ⟨cs, rfl⟩))⟩
  | case3 cs => exact ⟨[], Language.nil_mem_kstar _, '\n' :: cs, rfl, .inr (.inr (.inr ⟨cs, rfl⟩))⟩
  | case4 c cs ih =>
    obtain ⟨ds, hds, back, rfl, hback⟩ := ih
    exact ⟨['\\', c] ++ ds, append_mem_kstar (mem_quotedChar.mpr (.inr ⟨c, rfl⟩)) hds, back, rfl,
      hback⟩
  | case5 c cs hq hn hb ih =>
    obtain ⟨ds, hds, back, rfl, hback⟩ := ih
    by_cases hc : c = '\\'
    · -- a backslash takes the character behind it, so there is none
      subst hc
      cases hcs : ds ++ back with
      | nil => exact ⟨[], Language.nil_mem_kstar _, ['\\'], rfl, .inr (.inl rfl)⟩
      | cons d es => exact absurd hcs (hb d es rfl)
    · have hplain := mem_quotedChar.mpr (.inl ⟨c, ⟨hq, hn, hc⟩, rfl⟩)
      exact ⟨[c] ++ ds, append_mem_kstar hplain hds, back, rfl, hback⟩

/-- What is read as the inside of a string is passed over. -/
theorem quotedTail_append_of_mem (h : cs ∈ quotedChar∗) :
    quotedTail (cs ++ rest) = (quotedTail rest).prepend cs := by
  rw [Language.mem_kstar] at h
  obtain ⟨ws, rfl, hws⟩ := h
  induction ws with
  | nil => rfl
  | cons w ws ih =>
    have htail := ih fun v hv => hws v (List.mem_cons_of_mem w hv)
    rw [List.flatten_cons, List.append_assoc, ← prepend_prepend, ← htail]
    obtain ⟨c, hc, rfl⟩ | ⟨c, rfl⟩ := mem_quotedChar.mp (hws w List.mem_cons_self)
    · rw [List.singleton_append, quotedTail_cons hc]
    · rw [List.cons_append, List.singleton_append, quotedTail_escape]

theorem quotedTail_of_mem (h : cs ∈ quotedChar∗) :
    quotedTail (cs ++ '"' :: rest) = ⟨.string, cs ++ ['"'], rest⟩ := quotedTail_append_of_mem h

theorem text_quotedTail (h : (quotedTail cs).kind ≠ .error) :
    ∃ ds ∈ quotedChar∗, (quotedTail cs).text = ds ++ ['"'] := by
  obtain ⟨ds, hds, back, rfl, rfl | rfl | ⟨es, rfl⟩ | ⟨es, rfl⟩⟩ := exists_quotedChars cs
  · rw [quotedTail_append_of_mem hds] at h
    exact absurd rfl h
  · rw [quotedTail_append_of_mem hds] at h
    exact absurd rfl h
  · exact ⟨ds, hds, by rw [quotedTail_of_mem hds]⟩
  · rw [quotedTail_append_of_mem hds] at h
    exact absurd rfl h

theorem endsBlock_blockTail (h : (blockTail cs).kind ≠ .error) : EndsBlock (blockTail cs).text := by
  fun_induction blockTail cs with
  | case1 => exact absurd rfl h
  | case2 cs => exact .close
  | case3 cs ih => exact .escaped (ih h)
  | case4 c cs hq hb ih =>
    -- quotes at the front of the piece are at the front of the text
    have hprefix : c :: (blockTail cs).text <+: c :: cs :=
      List.cons_prefix_cons.mpr ⟨rfl, (blockTail cs).rest, blockTail_append cs⟩
    refine .char (fun hclose => ?_) (fun hescaped => ?_) (ih h)
    · obtain ⟨ds, hds⟩ := hclose.trans hprefix
      obtain ⟨rfl, rfl⟩ := List.cons.inj hds
      exact hq ds rfl rfl
    · obtain ⟨ds, hds⟩ := hescaped.trans hprefix
      obtain ⟨rfl, rfl⟩ := List.cons.inj hds
      exact hb ds rfl rfl

theorem blockTail_of_endsBlock (h : EndsBlock cs) : blockTail cs = ⟨.blockString, cs, []⟩ := by
  induction h with
  | close => rfl
  | escaped h ih =>
    rw [Block.tripleQuote, List.cons_append, List.cons_append, List.cons_append, List.cons_append,
      List.nil_append, blockTail, ih, prepend]
    rfl
  | @char c cs hclose hescaped h ih =>
    rw [blockTail, ih, prepend]
    · rfl
    · rintro ds rfl rfl
      exact hclose ⟨ds, rfl⟩
    · rintro ds rfl rfl
      exact hescaped ⟨ds, rfl⟩

/-! ### Lexemes -/

theorem mem_language_of_isNumber {w m i f e : List Char} (h : IsNumber w m i f e) :
    w ∈ (numberKind f e).language := by
  rw [numberKind_of_exponent h.exponent]
  split
  next hnil =>
    obtain ⟨rfl, rfl⟩ := hnil
    exact mem_integer.mpr ⟨m, i, h⟩
  next hne => exact mem_float.mpr ⟨m, i, f, e, h, hne⟩

theorem mem_language_wordKind (h : cs ∈ name) : cs ∈ (wordKind cs).language := by
  unfold wordKind
  split
  next k hk =>
    have htext : cs = k.text.toList := by rw [Keyword.text_of_ofText? hk, String.toList_ofList]
    exact htext
  next hnone =>
    refine ⟨h, ?_⟩
    rintro k rfl
    rw [String.ofList_toList, Keyword.ofText?_text] at hnone
    cases hnone

theorem text_string_mem_language (h : (string cs).kind ≠ .error) :
    (string cs).text ∈ (string cs).kind.language := by
  by_cases hq : ∃ ds, cs = '"' :: '"' :: ds
  · obtain ⟨ds, rfl⟩ := hq
    have hkind : (blockTail ds).kind = .blockString := (kind_blockTail ds).resolve_right h
    rw [string, prepend, hkind]
    exact ⟨_, endsBlock_blockTail h, rfl⟩
  · rw [string_of_ne (not_exists.mp hq)] at h ⊢
    have hkind : (quotedTail cs).kind = .string := (kind_quotedTail cs).resolve_right h
    obtain ⟨ds, hds, htext⟩ := text_quotedTail h
    rw [prepend, hkind, htext]
    exact mem_quoted.mpr ⟨ds, hds, rfl⟩

/-- A lexeme is a word of the language of its kind. -/
theorem text_scan_mem_language {c : Char} (h : (scan c cs).kind ≠ .error) :
    (scan c cs).text ∈ (scan c cs).kind.language := by
  cases hm : Mark.ofChar? c with
  | some m =>
    simp only [scan, hm]
    obtain rfl := Mark.char_of_ofChar? hm
    exact (String.toList_ofList (l := [m.char])).symm
  | none =>
    simp only [scan, hm] at h ⊢
    split_ifs at h ⊢ with hq hd hs
    · exact text_string_mem_language h
    · obtain ⟨m, i, f, e, hn, hk⟩ := isNumber_number h
      rw [hk]
      exact mem_language_of_isNumber hn
    · refine mem_language_wordKind (mem_name.mpr ⟨⟨c, ?_, hs⟩, List.all_takeWhile⟩)
      rw [List.takeWhile_cons_of_pos (isNameChar_of_isNameStart hs)]
      rfl
    · exact absurd rfl h

theorem scan_mark (m : Mark) : scan m.char cs = ⟨.mark m, [m.char], cs⟩ := by
  rw [scan, Mark.ofChar?_char]

theorem exists_cons_of_isNumber {w m i f e : List Char} (h : IsNumber w m i f e) :
    ∃ d ds, w = d :: ds ∧ (d = '-' ∨ d.isDigit = true) := by
  obtain ⟨rfl, hm, hi, -, -⟩ := h
  obtain ⟨d, ds, rfl, hd⟩ := exists_cons_of_unsigned hi
  obtain rfl | rfl := mem_optional_minus.mp hm
  · exact ⟨'-', _, rfl, .inl rfl⟩
  · exact ⟨d, _, rfl, .inr hd⟩

theorem scan_number {d : Char} (h : d = '-' ∨ d.isDigit = true) : scan d cs = number (d :: cs) := by
  have hquote : d ≠ '"' := by
    rintro rfl
    exact absurd h (by decide)
  have hmark : Mark.ofChar? d = none := by
    cases hm : Mark.ofChar? d with
    | none => rfl
    | some m =>
      obtain rfl := Mark.char_of_ofChar? hm
      cases m <;> exact absurd h (by decide)
  simp only [scan, hmark, if_neg hquote, if_pos h]

theorem scan_isNumber {w m i f e : List Char} (h : IsNumber w m i f e) :
    ∃ d ds, w = d :: ds ∧ scan d ds = ⟨numberKind f e, w, []⟩ := by
  obtain ⟨d, ds, rfl, hd⟩ := exists_cons_of_isNumber h
  exact ⟨d, ds, rfl, by rw [scan_number hd, number_of_isNumber h]⟩

theorem Relexes.scan_alone {k : TokenKind} {w : List Char} (h : Relexes k w) :
    ∃ d ds, w = d :: ds ∧ scan d ds = ⟨k, w, []⟩ := by
  obtain ⟨d, ds, rfl, hscan⟩ := h
  have hnil := hscan [] .nil
  rw [List.append_nil] at hnil
  exact ⟨d, ds, rfl, hnil⟩

theorem head_of_mem_quotedChar (h : cs ∈ quotedChar∗) : ∀ c ∈ cs.head?, c ≠ '"' := by
  rw [Language.mem_kstar] at h
  obtain ⟨ws, rfl, hws⟩ := h
  cases ws with
  | nil => nofun
  | cons w ws =>
    obtain ⟨c, hc, rfl⟩ | ⟨c, rfl⟩ := mem_quotedChar.mp (hws w List.mem_cons_self)
    · rintro d ⟨⟩
      exact hc.1
    · rintro d ⟨⟩
      decide

theorem scan_quoted (h : cs ∈ quoted) : ∃ ds, cs = '"' :: ds ∧ scan '"' ds = ⟨.string, cs, []⟩ := by
  obtain ⟨ds, hds, rfl⟩ := mem_quoted.mp h
  refine ⟨ds ++ ['"'], rfl, ?_⟩
  have hne : ∀ es, ds ++ ['"'] ≠ '"' :: '"' :: es := by
    intro es heq
    cases ds with
    | nil => cases heq
    | cons d ds => exact head_of_mem_quotedChar hds d rfl (List.cons.inj heq).1
  have hscan : scan '"' (ds ++ ['"']) = string (ds ++ ['"']) := rfl
  rw [hscan, string_of_ne hne, quotedTail_of_mem hds]
  rfl

/-- A word of the language of a kind is one lexeme of that kind. -/
theorem scan_of_mem_language {k : TokenKind} (h : cs ∈ k.language) :
    ∃ d ds, cs = d :: ds ∧ scan d ds = ⟨k, cs, []⟩ := by
  cases k with
  | eof | error => exact absurd h (Language.notMem_zero _)
  | ident =>
    obtain ⟨hname, hkeyword⟩ := h
    obtain ⟨hstart, hall⟩ := mem_name.mp hname
    have hkind : wordKind cs = .ident := by
      cases hk : Keyword.ofText? (String.ofList cs) with
      | none => rw [wordKind, hk]
      | some k =>
        have htext : cs = k.text.toList := by rw [Keyword.text_of_ofText? hk, String.toList_ofList]
        exact absurd htext (hkeyword k)
    exact hkind ▸ (relexes_name hstart hall).scan_alone
  | int =>
    obtain ⟨m, i, hn⟩ := mem_integer.mp h
    exact scan_isNumber hn
  | float =>
    obtain ⟨m, i, f, e, hn, hne⟩ := mem_float.mp h
    have hkind : numberKind f e = .float := by rw [numberKind_of_exponent hn.exponent, if_neg hne]
    exact hkind ▸ scan_isNumber hn
  | string =>
    obtain ⟨ds, rfl, hscan⟩ := scan_quoted h
    exact ⟨_, _, rfl, hscan⟩
  | blockString =>
    obtain ⟨ds, hds, rfl⟩ := h
    have hscan : scan '"' ('"' :: '"' :: ds) = (blockTail ds).prepend Block.tripleQuote := rfl
    refine ⟨'"', '"' :: '"' :: ds, rfl, ?_⟩
    rw [hscan, blockTail_of_endsBlock hds]
    rfl
  | keyword k =>
    obtain rfl : cs = k.text.toList := h
    exact (relexes_keyword k).scan_alone
  | mark m =>
    obtain rfl : cs = [m.char] := Eq.trans h String.toList_ofList
    exact ⟨m.char, [], rfl, scan_mark m⟩

end Lexeme

/-! ### Texts -/

open Lexeme

theorem Tokens.toList_ofString_of_mem_language {source : String} {k : TokenKind}
    (h : source.toList ∈ k.language) :
    ∃ p, (ofString source).toList = [⟨k, source, ⟨.start, ⟨0, source.utf8ByteSize⟩⟩⟩,
      ⟨.eof, "", ⟨p, .empty source.utf8ByteSize⟩⟩] := by
  obtain ⟨c, cs, hcs, hscan⟩ := scan_of_mem_language h
  have hk : (scan c cs).kind ≠ .error := by
    rw [hscan]
    rintro rfl
    exact Language.notMem_zero _ h
  have hskip : (Cursor.ofString source).skipTrivia = ⟨.start, c :: cs⟩ := by
    rw [Cursor.ofString, hcs]
    exact Cursor.skipTrivia_cons (not_trivia_of_kind_ne_error hk)
  have hstop : (Place.start.pastAll source.toList).offset = source.utf8ByteSize := by
    rw [(Passes.pastAll .start source.toList).1, byteCount_toList]
    exact Nat.zero_add _
  have hend : ofCursor ⟨Place.start.pastAll source.toList, []⟩ = ⟨[], ⟨.eof, "",
      ⟨(Place.start.pastAll source.toList).position, .empty source.utf8ByteSize⟩⟩⟩ := by
    rw [← hstop]
    exact ofCursor_of_skipTrivia_nil rfl
  have hplace : Place.start.locate source.toList = ⟨.start, ⟨0, source.utf8ByteSize⟩⟩ := by
    rw [← hstop]
    rfl
  refine ⟨(Place.start.pastAll source.toList).position, ?_⟩
  rw [toList, ofString, ofCursor_of_skipTrivia hskip, hscan]
  dsimp only
  rw [hend, hplace, String.ofList_toList]
  rfl

/-- The kinds of tokens are decided by languages. Every token but errors and the end is a word of
the language of its kind, and a source that is one is that token alone. -/
theorem Tokens.language_ofString (source : String) :
    (∀ t ∈ (ofString source).toList, t.kind ≠ .error → t.kind ≠ .eof →
      t.text.toList ∈ t.kind.language) ∧
    ∀ k, source.toList ∈ k.language →
      ∃ p, (ofString source).toList = [⟨k, source, ⟨.start, ⟨0, source.utf8ByteSize⟩⟩⟩,
        ⟨.eof, "", ⟨p, .empty source.utf8ByteSize⟩⟩] := by
  refine ⟨fun t ht herror heof => ?_, fun k hk => toList_ofString_of_mem_language hk⟩
  rcases List.mem_append.mp ht with ht | ht
  · obtain ⟨c, cs, hkind, htext⟩ := isCut_words (.ofString source) t ht
    rw [hkind] at herror
    rw [hkind, htext, String.toList_ofList]
    exact text_scan_mem_language herror
  · have hstop : (ofString source).stop.kind = .eof :=
      congrArg Prod.fst (spelling_stop .start source.toList)
    rw [List.mem_singleton.mp ht] at heof
    exact absurd hstop heof

/-- A string of which the only character is a quote with a backslash before it. -/
theorem Tokens.language_ofString_escaped :
    let source := "\"\\\"\""
    let t : Token := ⟨.string, source, ⟨.start, ⟨0, 4⟩⟩⟩
    source.toList ∈ TokenKind.string.language ∧ (t ∈ (ofString source).toList ∧
        t.text.toList ∈ t.kind.language) ∧
      ∃ p, (ofString source).toList = [t, ⟨.eof, "", ⟨p, .empty 4⟩⟩] := by
  intro source t
  obtain ⟨hkinds, halone⟩ := language_ofString source
  have hchar : ['\\', '"'] ∈ Lexicon.quotedChar := Lexicon.mem_quotedChar.mpr (.inr ⟨'"', rfl⟩)
  have hsource : source.toList ∈ TokenKind.string.language :=
    Lexicon.mem_quoted.mpr
      ⟨_, Lexicon.append_mem_kstar hchar (Language.nil_mem_kstar _), by decide +kernel⟩
  have ht : t ∈ (ofString source).toList := by decide +kernel
  exact ⟨hsource, ⟨ht, hkinds t ht nofun nofun⟩, halone .string hsource⟩

end SchemaLang
