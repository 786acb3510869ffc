import Mathlib.Data.UInt
import SchemaLang.Proofs.Guarded.Basic

/-! The bytes of a text in UTF-8. An ASCII character is one byte, that of its number; any other
has a leading byte and tail bytes, none of which is the number of an ASCII character. So an ASCII
character is found among the bytes exactly where it stands in the text. -/

namespace SchemaLang

/-- The bytes of a character, each as the character of its number. -/
def charBytes (c : Char) : List Char := (String.utf8EncodeChar c).map UInt8.toChar

/-- The bytes of a text. -/
def bytes (cs : List Char) : List Char := cs.flatMap charBytes

/-- A byte that goes on with a character begun before: its two highest bits are 1 and 0. -/
def isTail (b : Char) : Bool := 0x80 ≤ b.toNat && b.toNat < 0xC0

/-- The characters of one byte. -/
def IsAscii (c : Char) : Prop := c.toNat < 0x80

instance : DecidablePred IsAscii := fun c => inferInstanceAs (Decidable (c.toNat < 0x80))

theorem bytes_append (us vs : List Char) : bytes (us ++ vs) = bytes us ++ bytes vs :=
  List.flatMap_append

theorem length_charBytes (c : Char) : (charBytes c).length = c.utf8Size := by
  rw [charBytes, List.length_map, String.length_utf8EncodeChar]

theorem length_bytes (cs : List Char) : (bytes cs).length = byteCount cs := by
  induction cs with
  | nil => rfl
  | cons c cs ih =>
    rw [byteCount_cons, ← ih, ← length_charBytes c, ← List.length_append]
    rfl

theorem toNat_toChar_ofNat (n : Nat) : (UInt8.ofNat n).toChar.toNat = n % 256 := rfl

/-! ### Characters of one byte -/

theorem charBytes_of_isAscii {c : Char} (h : IsAscii c) : charBytes c = [c] := by
  have hle : c.val.toNat ≤ 127 := Nat.le_of_lt_succ h
  have hchar : (UInt8.ofNat c.val.toNat).toChar = c := by
    apply Char.toNat_inj.mp
    rw [toNat_toChar_ofNat]
    exact Nat.mod_eq_of_lt (by omega)
  rw [charBytes, String.utf8EncodeChar, if_pos hle, List.map_singleton, hchar]

theorem IsAscii.utf8Size {c : Char} (h : IsAscii c) : c.utf8Size = 1 := by
  rw [← length_charBytes, charBytes_of_isAscii h, List.length_singleton]

theorem byteCount_of_isAscii {cs : List Char} (h : ∀ c ∈ cs, IsAscii c) :
    byteCount cs = cs.length := by
  induction cs with
  | nil => rfl
  | cons c cs ih =>
    obtain ⟨hc, hcs⟩ := List.forall_mem_cons.mp h
    rw [byteCount_cons, hc.utf8Size, ih hcs, List.length_cons, Nat.add_comm]

/-! ### Characters of several bytes -/

theorem exists_charBytes {c : Char} (h : ¬ IsAscii c) : ∃ b tails, charBytes c = b :: tails ∧
    0xC0 ≤ b.toNat ∧ ∀ t ∈ tails, isTail t = true := by
  have hlt : ¬ c.val.toNat ≤ 127 := fun hle => h (Nat.lt_succ_of_le hle)
  have htail : ∀ n, isTail (UInt8.ofNat (n % 64 + 128)).toChar = true := by
    intro n
    rw [isTail, toNat_toChar_ofNat, Bool.and_eq_true, decide_eq_true_eq, decide_eq_true_eq]
    omega
  have hlead : ∀ n, 0xC0 ≤ n → n < 256 → 0xC0 ≤ (UInt8.ofNat n).toChar.toNat := by
    intro n hn hn'
    rwa [toNat_toChar_ofNat, Nat.mod_eq_of_lt hn']
  have hnone : ∀ t ∈ ([] : List Char), isTail t = true := by nofun
  rw [charBytes, String.utf8EncodeChar, if_neg hlt]
  generalize c.val.toNat = n
  split_ifs
  · rw [List.map_cons, List.map_cons, List.map_nil]
    exact ⟨_, _, rfl, hlead _ (by omega) (by omega), List.forall_mem_cons.mpr ⟨htail _, hnone⟩⟩
  · rw [List.map_cons, List.map_cons, List.map_cons, List.map_nil]
    exact ⟨_, _, rfl, hlead _ (by omega) (by omega), List.forall_mem_cons.mpr
      ⟨htail _, List.forall_mem_cons.mpr ⟨htail _, hnone⟩⟩⟩
  · rw [List.map_cons, List.map_cons, List.map_cons, List.map_cons, List.map_nil]
    exact ⟨_, _, rfl, hlead _ (by omega) (by omega), List.forall_mem_cons.mpr
      ⟨htail _, List.forall_mem_cons.mpr ⟨htail _, List.forall_mem_cons.mpr ⟨htail _, hnone⟩⟩⟩⟩

/-- No byte of a character is an ASCII character but that character itself. -/
theorem eq_of_mem_charBytes {b c : Char} (h : b ∈ charBytes c) (hb : IsAscii b) : b = c := by
  by_cases hc : IsAscii c
  · rw [charBytes_of_isAscii hc] at h
    exact List.mem_singleton.mp h
  · obtain ⟨l, tails, heq, hl, htails⟩ := exists_charBytes hc
    rw [IsAscii] at hb
    rw [heq] at h
    rcases List.mem_cons.mp h with rfl | h
    · omega
    · have htail := htails b h
      simp only [isTail, Bool.and_eq_true, decide_eq_true_eq] at htail
      omega

/-- A test that only ASCII characters pass tells the same of a text and of its bytes. -/
theorem any_head?_bytes {test : Char → Bool} (htest : ∀ c, test c = true → IsAscii c)
    (cs : List Char) : (bytes cs).head?.any test = cs.head?.any test := by
  cases cs with
  | nil => rfl
  | cons c cs =>
    by_cases hc : IsAscii c
    · rw [bytes, List.flatMap_cons, charBytes_of_isAscii hc]
      rfl
    · obtain ⟨b, tails, heq, hb, -⟩ := exists_charBytes hc
      have hfalse : test b = false := by
        rw [Bool.eq_false_iff]
        intro h
        have := htest b h
        rw [IsAscii] at this
        omega
      have hfalse' : test c = false := Bool.eq_false_iff.mpr fun h => hc (htest c h)
      rw [bytes, List.flatMap_cons, heq]
      exact hfalse.trans hfalse'.symm

/-! ### Characters among bytes -/

theorem toChar_injective : Function.Injective UInt8.toChar := by
  intro a b h
  apply UInt8.toNat_inj.mp
  exact congrArg Char.toNat h

/-- A text whose bytes begin with those of a character begins with that character. -/
theorem head?_of_prefix_bytes {c : Char} {cs : List Char} (h : charBytes c <+: bytes cs) :
    cs.head? = some c := by
  obtain ⟨xs, hxs⟩ := h
  have hmap : (cs.flatMap String.utf8EncodeChar).map UInt8.toChar = charBytes c ++ xs := by
    rw [hxs, bytes, List.map_flatMap]
    rfl
  obtain ⟨us, vs, happ, hus, -⟩ := List.map_eq_append_iff.mp hmap
  obtain rfl := toChar_injective.list_map hus
  have hdecode (d : Char) (l : List UInt8) :
      (String.utf8EncodeChar d ++ l).toByteArray.utf8DecodeChar? 0 = some d := by
    rw [List.toByteArray_append]
    exact ByteArray.utf8DecodeChar?_utf8EncodeChar_append
  cases cs with
  | nil =>
    have hlen := congrArg List.length happ
    have hpos := c.utf8Size_pos
    rw [List.length_append, String.length_utf8EncodeChar, List.flatMap_nil, List.length_nil] at hlen
    omega
  | cons d cs =>
    rw [List.flatMap_cons] at happ
    have hd := hdecode d (cs.flatMap String.utf8EncodeChar)
    rw [happ, hdecode c vs] at hd
    exact hd.symm

theorem prefix_bytes_iff {ws cs : List Char} : bytes ws <+: bytes cs ↔ ws <+: cs := by
  constructor
  · intro h
    induction ws generalizing cs with
    | nil => exact List.nil_prefix
    | cons w ws ih =>
      have hfirst : charBytes w <+: bytes cs := (List.prefix_append _ _).trans h
      obtain ⟨cs, rfl⟩ := List.head?_eq_some_iff.mp (head?_of_prefix_bytes hfirst)
      rw [List.prefix_cons_inj]
      exact ih ((List.prefix_append_right_inj _).mp h)
  · rintro ⟨us, rfl⟩
    rw [bytes_append]
    exact List.prefix_append _ _

/-- The first line feed among the bytes of a text is that of the text. -/
theorem findIdx_bytes {note rest : List Char} (hnote : '\n' ∉ note)
    (hrest : rest = [] ∨ rest.head? = some '\n') :
    (bytes (note ++ rest)).findIdx (· == '\n') = byteCount note := by
  have hfeed : IsAscii '\n' := by decide
  have hnone : ∀ b ∈ bytes note, (b == '\n') = false := by
    intro b hb
    obtain ⟨c, hc, hbc⟩ := List.mem_flatMap.mp hb
    rw [beq_eq_false_iff_ne]
    rintro rfl
    rw [eq_of_mem_charBytes hbc hfeed] at hnote
    exact hnote hc
  have hzero : (bytes rest).findIdx (· == '\n') = 0 := by
    obtain rfl | hrest := hrest
    · rfl
    · obtain ⟨cs, rfl⟩ := List.head?_eq_some_iff.mp hrest
      rw [bytes, List.flatMap_cons, charBytes_of_isAscii hfeed]
      rfl
  have hlen : (bytes note).findIdx (· == '\n') = (bytes note).length :=
    List.findIdx_eq_length.mpr hnone
  rw [bytes_append, List.findIdx_append, hzero, hlen, if_neg (lt_irrefl _), Nat.zero_add,
    length_bytes]

end SchemaLang
