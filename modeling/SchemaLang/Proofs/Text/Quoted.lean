import SchemaLang.Lexeme
import SchemaLang.Text.Quoted

/-! Strings in quotes are read back. A value that is written between quotes is one lexeme,
whatever stands behind it except for a further quote, and reading the lexeme gives the value. -/

namespace SchemaLang

namespace Quoted

/-! ### Hexadecimal numbers -/

theorem hexValue?_hexDigit : ∀ n < 16, hexValue? (hexDigit n) = some n := by decide

theorem hexDigit_plain : ∀ n < 16, hexDigit n ≠ '"' ∧ hexDigit n ≠ '\n' ∧ hexDigit n ≠ '\\' := by
  decide

theorem hexDigit_ne_plus : ∀ n < 16, hexDigit n ≠ '+' := by decide

theorem readHex_hex4 {n : Nat} (h : n < 0x10000) : readHex (hex4 n) = some n := by
  have hne : hexDigit (n / 0x1000 % 16) ≠ '+' := hexDigit_ne_plus _ (Nat.mod_lt _ (by decide))
  have hd (m : Nat) : hexValue? (hexDigit (m % 16)) = some (m % 16) :=
    hexValue?_hexDigit _ (Nat.mod_lt _ (by decide))
  have hread : readHex (hex4 n) = readDigits (hex4 n) := by
    unfold readHex hex4
    split
    next heq => cases heq
    next heq => exact absurd (List.cons.inj heq).1 hne
    next => rfl
  rw [hread]
  simp only [readDigits, hex4, List.foldlM_cons, List.foldlM_nil, hd, Option.map_some,
    Option.bind_eq_bind, Option.bind_some, Option.pure_def, Option.some.injEq]
  omega

/-! ### Single characters -/

theorem toNat_lt_of_isControl {c : Char} (h : isControl c = true) : c.toNat < 0x10000 := by
  simp only [isControl, Bool.or_eq_true, Bool.and_eq_true, decide_eq_true_eq] at h
  omega

theorem charOf_toNat (c : Char) : charOf c.toNat = c := by
  have h : c.toNat.isValidChar := c.valid
  rw [charOf, if_pos h]
  exact Char.ofNat_toNat c

/-- A character is written with a short escape, by its number, or as it is. -/
theorem encodeChar_cases (c : Char) :
    (∃ e, (c, e) ∈ shortEscapes ∧ encodeChar c = ['\\', e]) ∨
    (isControl c = true ∧ encodeChar c = '\\' :: 'u' :: hex4 c.toNat) ∨
    (c ≠ '"' ∧ c ≠ '\n' ∧ c ≠ '\\' ∧ encodeChar c = [c]) := by
  unfold encodeChar
  split
  next e he =>
    obtain ⟨front, back, heq, -⟩ := List.lookup_eq_some_iff.mp he
    exact .inl ⟨e, by simp [heq], rfl⟩
  next hnone =>
    split
    next hc => exact .inr (.inl ⟨hc, rfl⟩)
    next =>
      have hne := List.lookup_eq_none_iff.mp hnone
      refine .inr (.inr ⟨?_, ?_, ?_, rfl⟩)
      · simpa using hne ('"', '"') (by decide)
      · simpa using hne ('\n', 'n') (by decide)
      · simpa using hne ('\\', '\\') (by decide)

/-! ### Reading -/

theorem decode_cons {c : Char} (h : c ≠ '\\') (cs : List Char) :
    decode (c :: cs) = c :: decode cs := by
  rw [decode.eq_def]
  exact if_pos h

theorem decode_escape {e : Char} (h : e ≠ 'u') (cs : List Char) :
    decode ('\\' :: e :: cs) = unescapeChar e :: decode cs := by
  rw [decode]
  simp [h]

theorem decode_number (n : Nat) (cs : List Char) :
    decode ('\\' :: 'u' :: (hex4 n ++ cs)) =
      (readHex (hex4 n)).elim replacement charOf :: decode cs := by
  rw [decode]
  simp [hex4]

theorem decode_encodeChar (c : Char) (cs : List Char) :
    decode (encodeChar c ++ cs) = c :: decode cs := by
  obtain ⟨e, he, h⟩ | ⟨hc, h⟩ | ⟨-, -, hc, h⟩ := encodeChar_cases c
  · obtain ⟨hu, hx⟩ := unescapeChar_of_mem he
    rw [h, List.cons_append, List.cons_append, List.nil_append, decode_escape hu, hx]
  · rw [h, List.cons_append, List.cons_append, decode_number,
      readHex_hex4 (toNat_lt_of_isControl hc), Option.elim_some, charOf_toNat]
  · rw [h, List.cons_append, List.nil_append, decode_cons hc]

/-- What is written between quotes is read back. -/
theorem decode_encode (value : List Char) : decode (encode value) = value := by
  induction value with
  | nil => rw [encode, List.flatMap_nil, decode]
  | cons c cs ih =>
    rw [encode, List.flatMap_cons, decode_encodeChar]
    exact congrArg (c :: ·) ih

theorem read_write (value : List Char) : read (write value) = value := by
  rw [read, write, List.drop_one, List.tail_cons, List.dropLast_concat, decode_encode]

end Quoted

/-! ### Lexemes -/

namespace Lexeme

open Quoted

@[simp] theorem prepend_prepend (front back : List Char) (l : Lexeme) :
    (l.prepend back).prepend front = l.prepend (front ++ back) := by
  simp [prepend]

theorem quotedTail_cons {c : Char} (h : c ≠ '"' ∧ c ≠ '\n' ∧ c ≠ '\\') (cs : List Char) :
    quotedTail (c :: cs) = (quotedTail cs).prepend [c] := by
  obtain ⟨hq, hn, hb⟩ := h
  rw [quotedTail]
  · exact hq
  · exact hn
  · rintro d ds rfl
    exact absurd rfl hb

theorem quotedTail_escape (e : Char) (cs : List Char) :
    quotedTail ('\\' :: e :: cs) = (quotedTail cs).prepend ['\\', e] := by
  rw [quotedTail]

theorem quotedTail_hex4 (n : Nat) (cs : List Char) :
    quotedTail (hex4 n ++ cs) = (quotedTail cs).prepend (hex4 n) := by
  have hd (m : Nat) := hexDigit_plain (m % 16) (Nat.mod_lt _ (by decide))
  simp only [hex4, List.cons_append, List.nil_append]
  rw [quotedTail_cons (hd _), quotedTail_cons (hd _), quotedTail_cons (hd _),
    quotedTail_cons (hd _)]
  simp

theorem quotedTail_encodeChar (c : Char) (cs : List Char) :
    quotedTail (encodeChar c ++ cs) = (quotedTail cs).prepend (encodeChar c) := by
  obtain ⟨e, -, h⟩ | ⟨-, h⟩ | ⟨hq, hn, hb, h⟩ := encodeChar_cases c
  · rw [h]
    exact quotedTail_escape e cs
  · rw [h, List.cons_append, List.cons_append, quotedTail_escape, quotedTail_hex4, prepend_prepend]
    rfl
  · rw [h]
    exact quotedTail_cons ⟨hq, hn, hb⟩ cs

theorem quotedTail_encode (value rest : List Char) :
    quotedTail (encode value ++ '"' :: rest) = ⟨.string, encode value ++ ['"'], rest⟩ := by
  induction value with
  | nil => rfl
  | cons c cs ih =>
    have h : encode (c :: cs) = encodeChar c ++ encode cs := List.flatMap_cons ..
    rw [h, List.append_assoc, quotedTail_encodeChar, ih]
    simp [prepend]

/-- The first character of what is written between quotes is no quote. -/
theorem head?_encode_ne (value : List Char) : (encode value).head? ≠ some '"' := by
  cases value with
  | nil => simp [encode]
  | cons c cs =>
    have h : encode (c :: cs) = encodeChar c ++ encode cs := List.flatMap_cons ..
    obtain ⟨e, -, hc⟩ | ⟨-, hc⟩ | ⟨hq, -, -, hc⟩ := encodeChar_cases c
    · simp [h, hc]
    · simp [h, hc]
    · simpa [h, hc] using hq

/-- A string in quotes is one lexeme, unless a quote comes right behind it. -/
theorem scan_write (value : List Char) {rest : List Char} (h : rest.head? ≠ some '"') :
    scan '"' (encode value ++ '"' :: rest) = ⟨.string, write value, rest⟩ := by
  have hs : string (encode value ++ '"' :: rest) =
      (quotedTail (encode value ++ '"' :: rest)).prepend ['"'] := by
    unfold string
    split
    next cs heq =>
      exfalso
      have hne := head?_encode_ne value
      cases hv : encode value with
      | nil =>
        rw [hv] at heq
        simp only [List.nil_append, List.cons.injEq, true_and] at heq
        exact h (by rw [heq]; rfl)
      | cons c cs =>
        rw [hv] at heq hne
        simp only [List.cons_append, List.cons.injEq] at heq
        exact hne (by rw [heq.1]; rfl)
    next => rfl
  have hm : Mark.ofChar? '"' = none := by decide
  unfold scan
  rw [hm, hs, quotedTail_encode]
  rfl

end Lexeme

end SchemaLang
