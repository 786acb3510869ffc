import SchemaLang.Proofs.Guarded.Moves
import SchemaLang.Proofs.Text.Language

/-! What the scanner finds. Over a source of fewer than `2 ^ 31` bytes no guard of the scanner
fails, and its tokens are those of the source: each of its functions, from a place before some part
of the source, finds the lexeme that this part begins with and moves to the place behind it. -/

namespace SchemaLang

open Guarded

/-- The kind of a lexeme that begins at `p`, and the place behind it. -/
def Place.behind (p : Place) (l : Lexeme) : TokenKind × Place := (l.kind, p.pastAll l.text)

namespace Scanner

variable {source rest cs : List Char} {p q : Place} {c : Char} {α : Type}

theorem pastAll_append (p : Place) (us vs : List Char) :
    p.pastAll (us ++ vs) = (p.pastAll us).pastAll vs := List.foldl_append

theorem behind_prepend (p : Place) (us : List Char) (l : Lexeme) :
    p.behind (l.prepend us) = (p.pastAll us).behind l := by
  rw [Place.behind, Place.behind, Lexeme.prepend, pastAll_append]

/-! ### Runs of characters -/

theorem Stands.skipWhile (hsize : Fits source) {test : Char → Bool}
    (htest : ∀ c, test c = true → IsAscii c) (h : Stands source p rest) :
    skipWhile source test p =
      .ok (!(rest.takeWhile test).isEmpty, p.pastAll (rest.takeWhile test)) := by
  have hloop : ∀ any, loop (fun s => remaining source s.2) (whileStep source test) (any, p) =
      .ok (any || !(rest.takeWhile test).isEmpty, p.pastAll (rest.takeWhile test)) := by
    induction rest generalizing p with
    | nil =>
      intro any
      have hstop : whileStep source test (any, p) = .ok (.inl (any, p)) :=
        if_neg (by rw [h.any_peek htest]; simp)
      rw [loop_of_stop hstop, List.takeWhile_nil, List.isEmpty_nil, Bool.not_true, Bool.or_false]
      rfl
    | cons c rest ih =>
      intro any
      by_cases hc : test c = true
      · have hnext : whileStep source test (any, p) = .ok (.inr (true, p.past c)) := by
          rw [whileStep, if_pos (by rw [h.any_peek htest]; exact hc), h.advance hsize (htest c hc)]
          rfl
        rw [loop_of_next hnext h.remaining_past, ih h.past, Bool.true_or,
          List.takeWhile_cons_of_pos hc, List.isEmpty_cons, Bool.not_false, Bool.or_true]
        rfl
      · have hstop : whileStep source test (any, p) = .ok (.inl (any, p)) :=
          if_neg (by rwa [h.any_peek htest])
        rw [loop_of_stop hstop, List.takeWhile_cons_of_neg hc, List.isEmpty_nil, Bool.not_true,
          Bool.or_false]
        rfl
  exact hloop false

theorem isAscii_of_le {c d : Char} (hd : IsAscii d) (h : c ≤ d) : IsAscii c :=
  Nat.lt_of_le_of_lt (UInt32.le_iff_toNat_le.mp h) hd

theorem isAscii_of_isDigit (h : c.isDigit = true) : IsAscii c := by
  rw [← Lexicon.isDigit_iff] at h
  exact isAscii_of_le (by decide) h.2

theorem isAscii_of_isNameStart (h : Lexeme.isNameStart c = true) : IsAscii c := by
  rw [← Lexicon.isLetter_iff] at h
  rcases h with ⟨-, h⟩ | ⟨-, h⟩ | rfl
  · exact isAscii_of_le (by decide) h
  · exact isAscii_of_le (by decide) h
  · decide

theorem isAscii_of_isNameChar (h : Lexeme.isNameChar c = true) : IsAscii c := by
  simp only [Lexeme.isNameChar, Char.isAlphanum, Bool.or_eq_true] at h
  rcases h with (h | h) | h
  · exact isAscii_of_isNameStart (by simp [Lexeme.isNameStart, h])
  · exact isAscii_of_isDigit h
  · exact isAscii_of_isNameStart (by simp [Lexeme.isNameStart, h])

theorem isAscii_char (m : Mark) : IsAscii m.char := by cases m <;> decide

theorem isAscii_of_isSeparator (h : isSeparator c = true) : IsAscii c := by
  simp only [isSeparator, Bool.or_eq_true, beq_iff_eq] at h
  rcases h with (((rfl | rfl) | rfl) | rfl) | rfl <;> decide

/-! ### Words and numbers -/

theorem Stands.scanWord (hsize : Fits source) (h : Stands source p rest) :
    scanWord source p = .ok (p.behind (Lexeme.word rest)) := by
  have hstands : Stands source p (rest.takeWhile Lexeme.isNameChar ++
      rest.dropWhile Lexeme.isNameChar) := by rwa [List.takeWhile_append_dropWhile]
  rw [Scanner.scanWord, h.skipWhile hsize fun _ => isAscii_of_isNameChar, ok_bind]
  dsimp only
  rw [hstands.slice_pastAll]
  rfl

theorem Stands.skipDigits (hsize : Fits source) (h : Stands source p rest) :
    Scanner.skipWhile source Char.isDigit p =
      .ok (!(Lexeme.splitDigits rest).1.isEmpty, p.pastAll (Lexeme.splitDigits rest).1) :=
  h.skipWhile hsize fun _ => isAscii_of_isDigit

/-- The place behind the first of the two parts that a text is split into. -/
theorem Stands.split (h : Stands source p rest) {parts : List Char × List Char}
    (hparts : parts.1 ++ parts.2 = rest) : Stands source (p.pastAll parts.1) parts.2 :=
  Stands.pastAll (by rwa [hparts])

theorem Stands.skipSign (hsize : Fits source) (h : Stands source p rest) :
    skipSign source p = .ok (p.pastAll (Lexeme.splitSign rest).1) := by
  have htest : ∀ c : Char, (decide (c = '+') || decide (c = '-')) = true → IsAscii c := by
    intro c hc
    simp only [Bool.or_eq_true, decide_eq_true_eq] at hc
    rcases hc with rfl | rfl <;> decide
  rw [Scanner.skipSign, h.any_peek htest]
  fun_cases Lexeme.splitSign rest with
  | case1 cs => exact h.advance hsize (by decide)
  | case2 cs => exact h.advance hsize (by decide)
  | case3 _ hplus hminus =>
    cases rest with
    | nil => rfl
    | cons c rest =>
      have hc : ¬ (decide (c = '+') || decide (c = '-')) = true := by
        simp only [Bool.or_eq_true, decide_eq_true_eq, not_or]
        exact ⟨fun h => hplus rest (by rw [h]), fun h => hminus rest (by rw [h])⟩
      exact if_neg hc

/-- The kind of a number with an exponent is told by the last digits. -/
theorem numberKind_exponent (fraction : List Char) {e : Char} {sign digits : List Char}
    (he : e.isDigit = false) (hsign : ∀ c ∈ sign, c.isDigit = false)
    (hdigits : ∀ c ∈ digits, c.isDigit = true) :
    Lexeme.numberKind fraction (e :: (sign ++ digits)) =
      if (!digits.isEmpty) = true then .float else .error := by
  rw [Lexeme.numberKind, if_neg (List.cons_ne_nil _ _)]
  cases hd : digits.getLast? with
  | none =>
    obtain rfl := List.getLast?_eq_none_iff.mp hd
    have hlast : ((e :: (sign ++ [])).getLast?.map Char.isDigit) ≠ some true := by
      rw [List.append_nil, List.getLast?_eq_getLast_of_ne_nil (List.cons_ne_nil _ _),
        Option.map_some]
      intro h
      rcases List.mem_cons.mp (List.getLast_mem (List.cons_ne_nil e sign)) with hmem | hmem
      · rw [hmem, he] at h
        cases h
      · rw [hsign _ hmem] at h
        cases h
    rw [if_neg hlast]
    rfl
  | some d =>
    have hmem := List.mem_of_getLast? hd
    have hne : digits ≠ [] := List.ne_nil_of_mem hmem
    have hlast : (e :: (sign ++ digits)).getLast? = some d := by
      rw [← List.cons_append, List.getLast?_append, hd]
      rfl
    rw [hlast, Option.map_some, hdigits d hmem, if_pos rfl]
    cases digits with
    | nil => exact absurd rfl hne
    | cons a digits => rfl

theorem isDigit_of_mem_splitSign (rest : List Char) :
    ∀ c ∈ (Lexeme.splitSign rest).1, c.isDigit = false := by
  fun_cases Lexeme.splitSign rest <;> simp

/-- The kind of a number with the given fraction and without an exponent. -/
def plainKind (fraction : List Char) : TokenKind := if fraction = [] then .int else .float

theorem Stands.scanExponent (hsize : Fits source) (h : Stands source p rest)
    (fraction : List Char) :
    scanExponent source (plainKind fraction) p =
      .ok (Lexeme.numberKind fraction (Lexeme.splitExponent rest).1,
        p.pastAll (Lexeme.splitExponent rest).1) := by
  have htest : ∀ c : Char, (decide (c = 'e') || decide (c = 'E')) = true → IsAscii c := by
    intro c hc
    simp only [Bool.or_eq_true, decide_eq_true_eq] at hc
    rcases hc with rfl | rfl <;> decide
  rw [Scanner.scanExponent, h.any_peek htest]
  cases rest with
  | nil => rfl
  | cons c cs =>
    by_cases hc : c = 'e' ∨ c = 'E'
    · have htested : (decide (c = 'e') || decide (c = 'E')) = true := by simpa using hc
      have hletter : c.isDigit = false := by rcases hc with rfl | rfl <;> decide
      have hsplit : (Lexeme.splitExponent (c :: cs)).1 =
          c :: ((Lexeme.splitSign cs).1 ++ (Lexeme.splitDigits (Lexeme.splitSign cs).2).1) := by
        rw [Lexeme.splitExponent, if_pos hc]
      have hpast := h.past
      have hsign := hpast.split (Lexeme.splitSign_append cs)
      have hdigits : ∀ d ∈ (Lexeme.splitDigits (Lexeme.splitSign cs).2).1, d.isDigit = true :=
        fun d hd => List.mem_takeWhile_imp hd
      rw [List.head?_cons, Option.any_some, if_pos htested, h.advance hsize (htest c htested),
        ok_bind, hpast.skipSign hsize, ok_bind, hsign.skipDigits hsize, ok_bind, hsplit,
        numberKind_exponent fraction hletter (isDigit_of_mem_splitSign cs) hdigits]
      dsimp only
      rw [← pastAll_append]
      rfl
    · have htested : ¬ (decide (c = 'e') || decide (c = 'E')) = true := by simpa using hc
      rw [List.head?_cons, Option.any_some, if_neg htested, Lexeme.splitExponent, if_neg hc]
      rfl

/-- Looking past a character of one byte is looking from behind it. -/
theorem Stands.peekAt_one (hsize : Fits source) (h : Stands source p (c :: rest))
    (hc : IsAscii c) : peekAt source p 1 = .ok (Scanner.peek source (p.past c)) := by
  have hone := one_le_byteCount_cons c rest
  rw [peekAt, h.add_offset hsize hone, ok_bind, Scanner.peek, Place.past, hc.utf8Size]
  rfl

theorem splitDigits_eq_nil_iff :
    (Lexeme.splitDigits rest).1 = [] ↔ ¬ rest.head?.any Char.isDigit = true := by
  cases rest with
  | nil => simp [Lexeme.splitDigits]
  | cons c cs =>
    by_cases hc : c.isDigit = true <;> simp [Lexeme.splitDigits, hc]

theorem Stands.scanFraction (hsize : Fits source) (h : Stands source p rest) :
    scanFraction source p =
      let fraction := Lexeme.splitFraction rest
      let exponent := Lexeme.splitExponent fraction.2
      .ok (Lexeme.numberKind fraction.1 exponent.1, p.pastAll (fraction.1 ++ exponent.1)) := by
  have hpoint : IsAscii '.' := by decide
  -- where there is no fraction the exponent begins at once
  have hnone (hfraction : Lexeme.splitFraction rest = ([], rest)) :
      Scanner.scanExponent source .int p =
        let fraction := Lexeme.splitFraction rest
        let exponent := Lexeme.splitExponent fraction.2
        .ok (Lexeme.numberKind fraction.1 exponent.1, p.pastAll (fraction.1 ++ exponent.1)) := by
    dsimp only
    rw [hfraction, List.nil_append]
    exact h.scanExponent hsize []
  rw [Scanner.scanFraction]
  by_cases hhead : rest.head? = some '.'
  · rw [if_pos ((h.peek_eq_some_iff hpoint).mpr hhead)]
    obtain ⟨cs, rfl⟩ := List.head?_eq_some_iff.mp hhead
    have hpast := h.past
    rw [h.peekAt_one hsize hpoint, ok_bind, hpast.any_peek fun _ => isAscii_of_isDigit]
    by_cases hdigits : (Lexeme.splitDigits cs).1 = []
    · rw [if_neg (splitDigits_eq_nil_iff.mp hdigits)]
      exact hnone (by rw [Lexeme.splitFraction, if_pos hdigits])
    · have hfraction : Lexeme.splitFraction ('.' :: cs) =
          ('.' :: (Lexeme.splitDigits cs).1, (Lexeme.splitDigits cs).2) := by
        rw [Lexeme.splitFraction, if_neg hdigits]
      have hkind : plainKind ('.' :: (Lexeme.splitDigits cs).1) = .float :=
        if_neg (List.cons_ne_nil _ _)
      have hexponent := (hpast.split (Lexeme.splitDigits_append cs)).scanExponent hsize
        ('.' :: (Lexeme.splitDigits cs).1)
      rw [hkind] at hexponent
      rw [if_pos (not_not.mp (splitDigits_eq_nil_iff.not.mp hdigits)), h.advance hsize hpoint,
        ok_bind, hpast.skipDigits hsize, ok_bind]
      dsimp only
      rw [hexponent, hfraction, pastAll_append]
      rfl
  · rw [if_neg fun hpeek => hhead ((h.peek_eq_some_iff hpoint).mp hpeek)]
    exact hnone (Lexeme.splitFraction_of_ne fun c hc hpoint => hhead (hpoint ▸ hc))

theorem Stands.scanInteger (hsize : Fits source) (h : Stands source p rest) :
    scanInteger source p =
      let integer := Lexeme.splitInteger rest
      let fraction := Lexeme.splitFraction integer.2
      let exponent := Lexeme.splitExponent fraction.2
      .ok (Lexeme.numberKind fraction.1 exponent.1,
        p.pastAll (integer.1 ++ fraction.1 ++ exponent.1)) := by
  have hzero : IsAscii '0' := by decide
  have hstands := h.split (Lexeme.splitInteger_append rest)
  rw [Scanner.scanInteger]
  dsimp only
  rw [List.append_assoc, pastAll_append]
  by_cases hhead : rest.head? = some '0'
  · obtain ⟨cs, rfl⟩ := List.head?_eq_some_iff.mp hhead
    rw [if_pos ((h.peek_eq_some_iff hzero).mpr hhead), h.advance hsize hzero, ok_bind]
    exact hstands.scanFraction hsize
  · rw [if_neg fun hpeek => hhead ((h.peek_eq_some_iff hzero).mp hpeek), h.skipDigits hsize,
      ok_bind]
    rw [Lexeme.splitInteger_of_ne fun c hc hzero => hhead (hzero ▸ hc)] at hstands ⊢
    exact hstands.scanFraction hsize

/-- A number is found where a digit or a minus sign comes. -/
theorem Stands.scanNumber (hsize : Fits source) (h : Stands source p (c :: cs))
    (hc : c = '-' ∨ c.isDigit = true) :
    scanNumber source p = .ok (p.behind (Lexeme.number (c :: cs))) := by
  have hminus : IsAscii '-' := by decide
  rw [Scanner.scanNumber, Lexeme.number, Place.behind]
  dsimp only
  by_cases hsign : c = '-'
  · subst hsign
    have hpast := h.past
    have hsplit : Lexeme.splitMinus ('-' :: cs) = (['-'], cs) := rfl
    rw [if_pos (h.peek_of_isAscii hminus), h.advance hsize hminus, ok_bind,
      hpast.any_peek fun _ => isAscii_of_isDigit, hsplit]
    dsimp only
    by_cases hdigit : cs.head?.any Char.isDigit = true
    · obtain ⟨d, ds, rfl⟩ : ∃ d ds, cs = d :: ds :=
        List.exists_cons_of_ne_nil (by rintro rfl; cases hdigit)
      rw [if_pos hdigit, if_neg (Lexeme.splitInteger_ne_nil (by simpa using hdigit) ds),
        hpast.scanInteger hsize]
      rfl
    · have hnil : (Lexeme.splitInteger cs).1 = [] := by
        rw [Lexeme.splitInteger_of_ne, splitDigits_eq_nil_iff.mpr hdigit]
        rintro d hd rfl
        rw [Option.mem_def.mp hd] at hdigit
        exact hdigit rfl
      rw [if_neg hdigit, if_pos hnil]
      rfl
  · have hsplit : Lexeme.splitMinus (c :: cs) = ([], c :: cs) :=
      Lexeme.splitMinus_of_ne (by simpa using hsign)
    rw [if_neg fun hpeek => hsign (by simpa using (h.peek_eq_some_iff hminus).mp hpeek), hsplit,
      if_neg (Lexeme.splitInteger_ne_nil (hc.resolve_left hsign) cs), h.scanInteger hsize]
    rfl

/-! ### Strings -/

/-- One move of a loop over a character: over the character itself if it is ASCII, and else from
byte to byte up to its end. -/
theorem Stands.loop_past (hsize : Fits source) (h : Stands source p (c :: rest))
    {step : Place → Guarded (α ⊕ Place)}
    (hascii : IsAscii c → step p = .ok (.inr (p.past c)))
    (hwide : ∀ p q b, Scanner.peek source p = some b → ¬ IsAscii b →
      Scanner.advance source p = .ok q → step p = .ok (.inr q)) :
    loop (remaining source) step p = loop (remaining source) step (p.past c) := by
  by_cases hc : IsAscii c
  · exact loop_of_next (hascii hc) h.remaining_past
  · exact (h.crosses hsize hc).loop hwide

/-- The loop over a quoted string moves on at a byte that is not ASCII. -/
theorem quotedStep_wide {b : Char} (hpeek : peek source p = some b) (hb : ¬ IsAscii b)
    (hmove : advance source p = .ok q) : quotedStep source p = .ok (.inr q) := by
  have hne : ∀ c, IsAscii c → peek source p ≠ some c := by
    rintro c hc heq
    rw [hpeek] at heq
    exact hb (Option.some.inj heq ▸ hc)
  have hgoes : ¬ (peek source p = none ∨ peek source p = some '\n') :=
    not_or.mpr ⟨hpeek ▸ Option.some_ne_none b, hne _ (by decide)⟩
  rw [quotedStep, if_neg hgoes, if_neg (hne _ (by decide)), if_neg (hne _ (by decide)), hmove]
  rfl

/-- It moves on at an ASCII character that does not end the string and escapes nothing. A backslash
at the end of the source has nothing to take along. -/
theorem Stands.quotedStep_plain (hsize : Fits source) (h : Stands source p (c :: rest))
    (hquote : c ≠ '"') (hfeed : c ≠ '\n') (hslash : c = '\\' → rest = []) (hc : IsAscii c) :
    quotedStep source p = .ok (.inr (p.past c)) := by
  have hpast := h.past
  rw [quotedStep, h.peek_of_isAscii hc, if_neg (by simpa using hfeed),
    if_neg fun heq => hquote (Option.some.inj heq), h.advance hsize hc, ok_bind]
  by_cases hescape : c = '\\'
  · rw [if_pos (congrArg some hescape), hpast.skipChar hsize, hslash hescape]
    rfl
  · rw [if_neg fun heq => hescape (Option.some.inj heq)]
    rfl

theorem Stands.scanQuoted (hsize : Fits source) (h : Stands source p rest) :
    loop (remaining source) (quotedStep source) p = .ok (p.behind (Lexeme.quotedTail rest)) := by
  have hquote : IsAscii '"' := by decide
  have hfeed : IsAscii '\n' := by decide
  have hslash : IsAscii '\\' := by decide
  induction rest using Lexeme.quotedTail.induct generalizing p with
  | case1 =>
    have hstop : quotedStep source p = .ok (.inl (.error, p)) :=
      if_pos (.inl (h.peek_eq_none_iff.mpr rfl))
    rw [loop_of_stop hstop]
    rfl
  | case2 cs =>
    have hpeek := h.peek_of_isAscii hquote
    have hstop : quotedStep source p = .ok (.inl (.string, p.past '"')) := by
      rw [quotedStep, hpeek, if_neg (by decide), if_pos rfl, h.advance hsize hquote]
      rfl
    rw [loop_of_stop hstop]
    rfl
  | case3 cs =>
    have hstop : quotedStep source p = .ok (.inl (.error, p)) :=
      if_pos (.inr (h.peek_of_isAscii hfeed))
    rw [loop_of_stop hstop]
    rfl
  | case4 c cs ih =>
    have hpast := h.past
    have hnext : quotedStep source p = .ok (.inr ((p.past '\\').past c)) := by
      rw [quotedStep, h.peek_of_isAscii hslash, if_neg (by decide), if_neg (by decide), if_pos rfl,
        h.advance hsize hslash, ok_bind, hpast.skipChar hsize]
      rfl
    rw [loop_of_next hnext (hpast.remaining_past.trans h.remaining_past), ih hpast.past,
      Lexeme.quotedTail, behind_prepend]
    rfl
  | case5 c cs hnequote hnefeed hneslash ih =>
    have hlast (hc : c = '\\') : cs = [] := by
      cases cs with
      | nil => rfl
      | cons d ds => exact (hneslash d ds hc rfl).elim
    rw [h.loop_past hsize (h.quotedStep_plain hsize hnequote hnefeed hlast)
      fun _ _ _ => quotedStep_wide, ih h.past, Lexeme.quotedTail, behind_prepend]
    · rfl
    · exact hnequote
    · exact hnefeed
    · exact hneslash

/-- A text is not seen where a byte comes that it does not begin with. -/
theorem sees_of_ne {b : Char} (hsize : Fits source) (hpeek : peek source p = some b)
    (hc : IsAscii c) (hne : b ≠ c) : sees source p (c :: cs) = .ok false := by
  obtain ⟨hlt, hget⟩ := List.getElem?_eq_some_iff.mp hpeek
  have hle := length_bytes source ▸ hlt.le
  rw [sees, seesBytes_eq hsize hle, Nat.add_zero, List.drop_eq_getElem_cons hlt, hget, bytes,
    List.flatMap_cons, charBytes_of_isAscii hc, List.singleton_append, List.isPrefixOf,
    beq_false_of_ne (Ne.symm hne), Bool.false_and]

/-- The loop over a block string moves on at a byte that is not ASCII. -/
theorem blockStep_wide (hsize : Fits source) {b : Char} (hpeek : peek source p = some b)
    (hb : ¬ IsAscii b) (hmove : advance source p = .ok q) : blockStep source p = .ok (.inr q) := by
  have hquote : IsAscii '"' := by decide
  have hslash : IsAscii '\\' := by decide
  have hgoes : peek source p ≠ none := hpeek ▸ Option.some_ne_none b
  have hclose : sees source p Block.tripleQuote = .ok false :=
    sees_of_ne hsize hpeek hquote fun heq => hb (heq ▸ hquote)
  have hescape : sees source p ('\\' :: Block.tripleQuote) = .ok false :=
    sees_of_ne hsize hpeek hslash fun heq => hb (heq ▸ hslash)
  rw [blockStep, if_neg hgoes, hclose, ok_bind, if_neg Bool.false_ne_true, hescape, ok_bind,
    if_neg Bool.false_ne_true, hmove]
  rfl

/-- It moves on at an ASCII character where no quotes come, escaped or not. -/
theorem Stands.blockStep_plain (hsize : Fits source) (h : Stands source p (c :: rest))
    (hclose : ¬ Block.tripleQuote <+: c :: rest)
    (hescape : ¬ '\\' :: Block.tripleQuote <+: c :: rest) (hc : IsAscii c) :
    blockStep source p = .ok (.inr (p.past c)) := by
  have hgoes := h.peek_eq_none_iff.not.mpr (List.cons_ne_nil c rest)
  rw [blockStep, if_neg hgoes, h.sees hsize, ok_bind, if_neg (decide_eq_true_iff.not.mpr hclose),
    h.sees hsize, ok_bind, if_neg (decide_eq_true_iff.not.mpr hescape), h.advance hsize hc]
  rfl

theorem Stands.scanBlock (hsize : Fits source) (h : Stands source p rest) :
    loop (remaining source) (blockStep source) p = .ok (p.behind (Lexeme.blockTail rest)) := by
  have hquote : IsAscii '"' := by decide
  have hquotes : ∀ c ∈ Block.tripleQuote, IsAscii c := by simpa [Block.tripleQuote] using hquote
  have hescape : ∀ c ∈ '\\' :: Block.tripleQuote, IsAscii c :=
    List.forall_mem_cons.mpr ⟨by decide, hquotes⟩
  induction rest using Lexeme.blockTail.induct generalizing p with
  | case1 =>
    have hstop : blockStep source p = .ok (.inl (.error, p)) :=
      if_pos (h.peek_eq_none_iff.mpr rfl)
    rw [loop_of_stop hstop]
    rfl
  | case2 cs =>
    have hmove : Scanner.advanceBy source 3 p = .ok (p.pastAll Block.tripleQuote) :=
      Stands.advanceBy_length hsize Block.tripleQuote h hquotes
    have hstop : blockStep source p = .ok (.inl (.blockString, p.pastAll Block.tripleQuote)) := by
      rw [blockStep, if_neg (h.peek_eq_none_iff.not.mpr (List.cons_ne_nil _ _)), h.sees hsize,
        ok_bind, if_pos (decide_eq_true ⟨cs, rfl⟩), hmove]
      rfl
    rw [loop_of_stop hstop]
    rfl
  | case3 cs ih =>
    have hpast : Stands source (p.pastAll ('\\' :: Block.tripleQuote)) cs := h.pastAll
    have hmove : Scanner.advanceBy source 4 p = .ok (p.pastAll ('\\' :: Block.tripleQuote)) :=
      Stands.advanceBy_length hsize ('\\' :: Block.tripleQuote) h hescape
    have hnext : blockStep source p = .ok (.inr (p.pastAll ('\\' :: Block.tripleQuote))) := by
      rw [blockStep, if_neg (h.peek_eq_none_iff.not.mpr (List.cons_ne_nil _ _)), h.sees hsize,
        ok_bind, if_neg, h.sees hsize, ok_bind, if_pos (decide_eq_true ⟨cs, rfl⟩), hmove]
      · rfl
      · simp [Block.tripleQuote]
    rw [loop_of_next hnext (Stands.remaining_pastAll ('\\' :: Block.tripleQuote) h
      (List.cons_ne_nil _ _)), ih hpast, Lexeme.blockTail, behind_prepend]
    rfl
  | case4 c cs hnequotes hneescape ih =>
    have hclose : ¬ Block.tripleQuote <+: c :: cs := by
      rintro ⟨ds, hds⟩
      exact hnequotes ds (List.cons.inj hds).1.symm (List.cons.inj hds).2.symm
    have hescaped : ¬ '\\' :: Block.tripleQuote <+: c :: cs := by
      rintro ⟨ds, hds⟩
      exact hneescape ds (List.cons.inj hds).1.symm (List.cons.inj hds).2.symm
    rw [h.loop_past hsize (h.blockStep_plain hsize hclose hescaped)
      fun _ _ _ => blockStep_wide hsize, ih h.past, Lexeme.blockTail, behind_prepend]
    · rfl
    · exact hnequotes
    · exact hneescape

/-- A string is found where a quote comes. -/
theorem Stands.scanString (hsize : Fits source) (h : Stands source p ('"' :: cs)) :
    scanString source p = .ok (p.behind (Lexeme.string cs)) := by
  have hquote : IsAscii '"' := by decide
  have hpast := h.past
  rw [Scanner.scanString, h.advance hsize hquote, ok_bind, hpast.sees hsize, ok_bind]
  by_cases hquotes : ['"', '"'] <+: cs
  · obtain ⟨ds, rfl⟩ := hquotes
    have hmove : Scanner.advanceBy source 2 (p.past '"') =
        .ok ((p.past '"').pastAll ['"', '"']) :=
      Stands.advanceBy_length hsize ['"', '"'] hpast (by simpa using hquote)
    rw [if_pos (decide_eq_true ⟨ds, rfl⟩), hmove, ok_bind, hpast.pastAll.scanBlock hsize]
    rfl
  · have hstring : Lexeme.string cs = (Lexeme.quotedTail cs).prepend ['"'] := by
      unfold Lexeme.string
      split
      next ds => exact absurd ⟨ds, rfl⟩ hquotes
      next => rfl
    rw [if_neg (by simpa using hquotes), hpast.scanQuoted hsize, hstring, behind_prepend]
    rfl

/-! ### Any lexeme -/

/-- A character that is not ASCII begins no lexeme, nor does a byte that is not. -/
theorem begins_none (hc : ¬ IsAscii c) : Mark.ofChar? c = none ∧ c ≠ '"' ∧
    ¬ (c = '-' ∨ c.isDigit = true) ∧ ¬ Lexeme.isNameStart c = true := by
  refine ⟨?_, ?_, ?_, fun h => hc (isAscii_of_isNameStart h)⟩
  · cases hm : Mark.ofChar? c with
    | none => rfl
    | some m => exact absurd (Mark.char_of_ofChar? hm ▸ isAscii_char m) hc
  · rintro rfl
    exact hc (by decide)
  · rintro (rfl | h)
    · exact hc (by decide)
    · exact hc (isAscii_of_isDigit h)

theorem Stands.scan (hsize : Fits source) (h : Stands source p (c :: cs)) {b : Char}
    (hb : Scanner.peek source p = some b) :
    scan source b p = .ok (p.behind (Lexeme.scan c cs)) := by
  by_cases hc : IsAscii c
  · obtain rfl : c = b := Option.some.inj ((h.peek_of_isAscii hc).symm.trans hb)
    rw [Scanner.scan, Lexeme.scan]
    cases Mark.ofChar? c with
    | some m =>
      dsimp only
      rw [h.advance hsize hc]
      rfl
    | none =>
      dsimp only
      split_ifs with hquote hnumber hname
      · subst hquote
        exact h.scanString hsize
      · exact h.scanNumber hsize hnumber
      · exact h.scanWord hsize
      · rw [h.skipChar hsize]
        rfl
  · obtain ⟨hmark, hquote, hnumber, hname⟩ := begins_none hc
    have hwide : ¬ IsAscii b := by
      intro hascii
      rw [h.peek_eq_some_iff hascii] at hb
      exact hc (Option.some.inj hb ▸ hascii)
    obtain ⟨hmark', hquote', hnumber', hname'⟩ := begins_none hwide
    rw [Scanner.scan, Lexeme.scan, hmark, hmark']
    dsimp only
    rw [if_neg hquote, if_neg hnumber, if_neg hname, if_neg hquote', if_neg hnumber', if_neg hname',
      h.skipChar hsize]
    rfl

/-! ### Trivia -/

theorem length_le_byteCount (cs : List Char) : cs.length ≤ byteCount cs := by
  induction cs with
  | nil => exact Nat.le_refl 0
  | cons c cs ih =>
    have hpos := c.utf8Size_pos
    rw [List.length_cons, byteCount_cons]
    omega

/-- On one line every character takes a column. -/
theorem pastAll_of_not_mem (p : Place) (h : '\n' ∉ cs) : p.pastAll cs =
    ⟨p.offset + byteCount cs, ⟨p.position.line, p.position.column + cs.length⟩⟩ := by
  induction cs generalizing p with
  | nil => rfl
  | cons c cs ih =>
    obtain ⟨hc, hcs⟩ := not_or.mp (List.mem_cons.not.mp h)
    have hcons : p.pastAll (c :: cs) = (p.past c).pastAll cs := rfl
    rw [hcons, ih (p.past c) hcs, Place.past, if_neg (Ne.symm hc), byteCount_cons, List.length_cons,
      Nat.add_assoc, Nat.add_assoc, Nat.add_comm 1]

theorem Stands.skipComment (hsize : Fits source) (note : List Char)
    (h : Stands source p (note ++ rest)) (hnote : '\n' ∉ note)
    (hrest : rest = [] ∨ rest.head? = some '\n') :
    skipComment source p = .ok (p.pastAll note) := by
  have hbytes : byteCount note ≤ byteCount (note ++ rest) := by
    rw [byteCount_append]
    omega
  have hstart : p.offset ≤ (bytes source).length := by
    rw [length_bytes, ← h.offset_add]
    omega
  have hslice := h.slice_pastAll
  rw [(Passes.pastAll p note).1] at hslice
  rw [Scanner.skipComment, sliceBytes, if_pos hstart, ok_bind, h.drop_bytes,
    findIdx_bytes hnote hrest, h.add_offset hsize hbytes, ok_bind, hslice, ok_bind,
    h.add_column hsize ((length_le_byteCount note).trans hbytes), pastAll_of_not_mem p hnote]
  rfl

/-- A text up to its first line feed, and the rest from there on. -/
theorem exists_line (cs : List Char) : ∃ note rest, cs = note ++ rest ∧ '\n' ∉ note ∧
    (rest = [] ∨ rest.head? = some '\n') := by
  refine ⟨cs.takeWhile (· ≠ '\n'), cs.dropWhile (· ≠ '\n'), List.takeWhile_append_dropWhile.symm,
    ?_, ?_⟩
  · intro h
    simpa using List.mem_takeWhile_imp h
  · have hhead := List.head?_dropWhile_not (fun c : Char => decide (c ≠ '\n')) cs
    cases hdrop : cs.dropWhile (· ≠ '\n') with
    | nil => exact .inl rfl
    | cons c rest =>
      rw [hdrop] at hhead
      exact .inr (congrArg some (by simpa using hhead))

/-- Outside a comment and where one ends the same is passed over. -/
theorem skipFrom_of_ends (b : Bool) (p : Place) (h : rest = [] ∨ rest.head? = some '\n') :
    Cursor.skipFrom b p rest = Cursor.skipFrom false p rest := by
  obtain rfl | h := h
  · rfl
  · obtain ⟨cs, rfl⟩ := List.head?_eq_some_iff.mp h
    cases b <;> rfl

/-- One step over trivia: the scanner stops where a cursor stops, or it passes some of the text and
the cursor, too, goes on from there. -/
theorem Stands.triviaStep (hsize : Fits source) (h : Stands source p rest) :
    triviaStep source p = .ok (.inl p) ∧ Cursor.skipFrom false p rest = ⟨p, rest⟩ ∨
    ∃ q back, back.length < rest.length ∧ Stands source q back ∧
      triviaStep source p = .ok (.inr q) ∧
      Cursor.skipFrom false p rest = Cursor.skipFrom false q back := by
  have hhash : IsAscii '#' := by decide
  rw [Scanner.triviaStep, h.any_peek fun _ => isAscii_of_isSeparator, h.sees hsize, ok_bind]
  cases rest with
  | nil =>
    refine .inl ⟨?_, rfl⟩
    rw [if_neg (by simp), if_neg (by rw [h.peek_eq_some_iff hhash]; simp), if_neg (by simp)]
    rfl
  | cons c cs =>
    rw [List.head?_cons, Option.any_some, Cursor.skipFrom, Bool.false_and,
      if_neg Bool.false_ne_true]
    by_cases hsep : isSeparator c = true
    · refine .inr ⟨p.past c, cs, Nat.lt_succ_self _, h.past, ?_, if_pos hsep⟩
      rw [if_pos hsep, h.advance hsize (isAscii_of_isSeparator hsep)]
      rfl
    rw [if_neg hsep, if_neg hsep]
    by_cases hcomment : c = '#'
    · subst hcomment
      obtain ⟨note, back, rfl, hnote, hback⟩ := exists_line cs
      have hnote' : '\n' ∉ '#' :: note := by simpa using hnote
      have hlt : back.length < ('#' :: (note ++ back)).length := by
        rw [List.length_cons, List.length_append]
        omega
      refine .inr ⟨p.pastAll ('#' :: note), back, hlt, h.pastAll, ?_, ?_⟩
      · rw [if_pos (h.peek_of_isAscii hhash),
          Stands.skipComment hsize ('#' :: note) h hnote' hback]
        rfl
      · rw [if_pos rfl, Cursor.skipFrom_note _ hnote, skipFrom_of_ends _ _ hback]
        rfl
    rw [if_neg hcomment, if_neg (by rw [h.peek_eq_some_iff hhash]; simpa using hcomment)]
    by_cases hmark : c = byteOrderMark
    · subst hmark
      refine .inr ⟨p.pastByteOrderMark, cs, Nat.lt_succ_self _, h.pastByteOrderMark, ?_, if_pos rfl⟩
      have hthree : 3 ≤ byteCount (byteOrderMark :: cs) := by
        rw [byteCount_cons]
        exact Nat.le_add_right 3 _
      rw [if_pos (by simp), h.add_offset hsize hthree]
      rfl
    · refine .inl ⟨?_, if_neg hmark⟩
      rw [if_neg (by simpa using Ne.symm hmark)]
      rfl

/-- The scanner passes over the trivia that a cursor passes over. -/
theorem Stands.skipTrivia (hsize : Fits source) (h : Stands source p rest) :
    skipTrivia source p = .ok (Cursor.skipFrom false p rest).place ∧
      Stands source (Cursor.skipFrom false p rest).place (Cursor.skipFrom false p rest).rest := by
  induction hn : rest.length using Nat.strongRecOn generalizing p rest with
  | _ n ih =>
    obtain ⟨hstep, hskip⟩ | ⟨q, back, hlt, hq, hstep, hskip⟩ := h.triviaStep hsize
    · rw [hskip, Scanner.skipTrivia, loop_of_stop hstep]
      exact ⟨rfl, h⟩
    · rw [hskip, Scanner.skipTrivia, loop_of_next hstep (h.remaining_lt_of_length_lt hq hlt)]
      exact ih back.length (hn ▸ hlt) hq rfl

/-! ### Tokens -/

/-- The next token is that of a cursor. -/
theorem Stands.next (hsize : Fits source) (h : Stands source p rest) :
    next source p = .ok ((Cursor.mk p rest).next.1, (Cursor.mk p rest).next.2.place) ∧
      Stands source (Cursor.mk p rest).next.2.place (Cursor.mk p rest).next.2.rest := by
  obtain ⟨hskip, hstands⟩ := h.skipTrivia hsize
  rw [Scanner.next, hskip, ok_bind, Cursor.next, Cursor.skipTrivia]
  generalize Cursor.skipFrom false p rest = d at *
  obtain ⟨q, back⟩ := d
  dsimp only at *
  cases back with
  | nil =>
    rw [hstands.peek_eq_none_iff.mpr rfl]
    exact ⟨rfl, hstands⟩
  | cons c cs =>
    obtain ⟨b, hb⟩ := Option.ne_none_iff_exists'.mp
      (hstands.peek_eq_none_iff.not.mpr (List.cons_ne_nil c cs))
    have hsplit : Stands source q ((Lexeme.scan c cs).text ++ (Lexeme.scan c cs).rest) := by
      rwa [Lexeme.scan_append]
    rw [hb]
    dsimp only
    rw [hstands.scan hsize hb, ok_bind, Place.behind]
    dsimp only
    rw [hsplit.slice_pastAll]
    exact ⟨rfl, hsplit.pastAll⟩

/-- The scanner finds the tokens of a source, and no guard fails on the way. -/
theorem tokens_eq {source : List Char} (hsize : Fits source) :
    tokens source = .ok (Tokens.ofString (String.ofList source)) := by
  have hloop : ∀ (d : Cursor) (words : List Token), Stands source d.place d.rest →
      loop (fun s => remaining source s.1) (tokenStep source) (d.place, words) =
        .ok ⟨words ++ (Tokens.ofCursor d).words, (Tokens.ofCursor d).stop⟩ := by
    intro d words h
    induction d using Tokens.ofCursor.induct generalizing words with
    | case1 d heof =>
      obtain ⟨hnext, -⟩ := h.next hsize
      have hstop : tokenStep source (d.place, words) = .ok (.inl ⟨words, d.next.1⟩) := by
        rw [tokenStep, hnext, ok_bind]
        exact if_pos heof
      rw [loop_of_stop hstop, Tokens.ofCursor, dif_pos heof, List.append_nil]
    | case2 d heof ih =>
      obtain ⟨hnext, hstands⟩ := h.next hsize
      have hstep : tokenStep source (d.place, words) =
          .ok (.inr (d.next.2.place, words ++ [d.next.1])) := by
        rw [tokenStep, hnext, ok_bind]
        exact if_neg heof
      have hlt := h.remaining_lt_of_length_lt hstands
        (Cursor.length_next_lt (Bool.eq_false_iff.mpr heof))
      rw [loop_of_next hstep hlt, ih _ hstands, Tokens.ofCursor.eq_def d, dif_neg heof]
      simp
  rw [tokens, Tokens.ofString, Cursor.ofString, String.toList_ofList]
  exact hloop ⟨.start, source⟩ [] (.start source)

end Scanner

end SchemaLang
