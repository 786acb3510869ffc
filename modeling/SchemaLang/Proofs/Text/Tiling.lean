import SchemaLang.Proofs.Text.Spacing

/-! Reading tokens loses nothing. A text is made of its tokens, each at its span, and of trivia
before each of them and at its end; and a cursor hands out these tokens in order, whichever way it
is asked, and behind them the token for the end or nothing, for ever. -/

namespace SchemaLang

/-! ### Gaps -/

/-- What a cursor passes over before `rest`: trivia, and a comment that ends with the text if `rest`
is empty. -/
def IsGap (rest us : List Char) : Prop :=
  ∃ gap back, us = gap ++ back ∧ IsTrivia gap ∧ EndsText back ∧ (rest ≠ [] → back = [])

/-- What has been read of a comment, if one is open. -/
def Opens : Bool → List Char → Prop
  | false, front => front = []
  | true, front => ∃ note, '\n' ∉ note ∧ front = '#' :: note

theorem Opens.snoc {front : List Char} {c : Char} (h : Opens true front) (hc : c ≠ '\n') :
    Opens true (front ++ [c]) := by
  obtain ⟨note, hnote, rfl⟩ := h
  refine ⟨note ++ [c], ?_, rfl⟩
  rw [List.mem_append, List.mem_singleton]
  exact not_or.mpr ⟨hnote, hc.symm⟩

theorem IsGap.separator {rest us : List Char} {c : Char} (h : IsGap rest us)
    (hc : isSeparator c = true) : IsGap rest (c :: us) := by
  obtain ⟨gap, back, rfl, hgap, hback, hrest⟩ := h
  exact ⟨c :: gap, back, rfl, .separator hc hgap, hback, hrest⟩

theorem IsGap.mark {rest us : List Char} (h : IsGap rest us) :
    IsGap rest (byteOrderMark :: us) := by
  obtain ⟨gap, back, rfl, hgap, hback, hrest⟩ := h
  exact ⟨byteOrderMark :: gap, back, rfl, .mark hgap, hback, hrest⟩

/-- A line feed ends a comment. -/
theorem IsGap.feed {rest front us : List Char} (h : IsGap rest us) (hfront : Opens true front) :
    IsGap rest (front ++ '\n' :: us) := by
  obtain ⟨gap, back, rfl, hgap, hback, hrest⟩ := h
  obtain ⟨note, hnote, rfl⟩ := hfront
  refine ⟨'#' :: (note ++ '\n' :: gap), back, ?_, .comment hnote hgap, hback, hrest⟩
  simp

theorem Opens.isGap {b : Bool} {front : List Char} (h : Opens b front) : IsGap [] front := by
  cases b with
  | false => exact ⟨[], front, rfl, .nil, .inl h, nofun⟩
  | true => exact ⟨[], front, rfl, .nil, .inr h, nofun⟩

/-- A character that is no comment's ends it or stands outside. -/
theorem Opens.eq_nil {b : Bool} {front : List Char} {c : Char} (h : Opens b front)
    (hb : ¬ (b && c != '\n') = true) (hc : ¬ isSeparator c = true) : front = [] := by
  cases b with
  | false => exact h
  | true =>
    have hfeed : c = '\n' := by simpa using hb
    subst hfeed
    exact absurd rfl hc

/-- What is passed over is a gap, together with what has been read of a comment before. -/
theorem exists_isGap_skipFrom {b : Bool} (p : Place) (cs : List Char) {front : List Char}
    (h : Opens b front) : ∃ us, us ++ (Cursor.skipFrom b p cs).rest = cs ∧
      IsGap (Cursor.skipFrom b p cs).rest (front ++ us) := by
  fun_induction Cursor.skipFrom b p cs generalizing front with
  | case1 b p => exact ⟨[], rfl, by rw [List.append_nil]; exact h.isGap⟩
  | case2 b p c cs hc ih =>
    obtain ⟨rfl, hfeed⟩ : b = true ∧ c ≠ '\n' := by simpa using hc
    obtain ⟨us, heq, hus⟩ := ih (h.snoc hfeed)
    exact ⟨c :: us, congrArg (c :: ·) heq, by rwa [List.append_assoc] at hus⟩
  | case3 b p c cs hc hs ih =>
    obtain ⟨us, heq, hus⟩ := @ih [] rfl
    refine ⟨c :: us, congrArg (c :: ·) heq, ?_⟩
    cases b with
    | false =>
      obtain rfl : front = [] := h
      exact hus.separator hs
    | true =>
      obtain rfl : c = '\n' := by simpa using hc
      exact hus.feed h
  | case4 b p cs hc hs ih =>
    obtain rfl := h.eq_nil hc hs
    obtain ⟨us, heq, hus⟩ := @ih ['#'] ⟨[], List.not_mem_nil, rfl⟩
    exact ⟨'#' :: us, congrArg ('#' :: ·) heq, hus⟩
  | case5 b p cs hc hs hn ih =>
    obtain rfl := h.eq_nil hc hs
    obtain ⟨us, heq, hus⟩ := @ih [] rfl
    exact ⟨byteOrderMark :: us, congrArg (byteOrderMark :: ·) heq, hus.mark⟩
  | case6 b p c cs hc hs hn hm =>
    obtain rfl := h.eq_nil hc hs
    exact ⟨[], rfl, [], [], rfl, .nil, .inl rfl, fun _ => rfl⟩

theorem isGap_of_skipTrivia {p q : Place} {us rest : List Char}
    (h : (Cursor.mk p (us ++ rest)).skipTrivia = ⟨q, rest⟩) : IsGap rest us := by
  obtain ⟨vs, heq, hvs⟩ := @exists_isGap_skipFrom false p (us ++ rest) [] rfl
  have hrest : (Cursor.skipFrom false p (us ++ rest)).rest = rest := congrArg Cursor.rest h
  rw [hrest] at heq hvs
  rwa [List.append_cancel_right heq] at hvs

/-! ### Tilings -/

/-- The text `cs`, which begins at the byte `start`, is made of the tokens, each with a text and
with the span of that text, and of trivia before each of them and behind the last. -/
inductive Tiles : Nat → List Token → List Char → Prop
  | nil {start : Nat} {gap back : List Char} (hgap : IsTrivia gap) (hback : EndsText back) :
      Tiles start [] (gap ++ back)
  | cons {start : Nat} {t : Token} {ts : List Token} {gap rest : List Char} (hgap : IsTrivia gap)
      (hne : t.text ≠ "")
      (hspan : t.location.span =
        ⟨start + byteCount gap, start + byteCount gap + t.text.utf8ByteSize⟩)
      (hrest : Tiles t.location.span.stop ts rest) :
      Tiles start (t :: ts) (gap ++ (t.text.toList ++ rest))

theorem byteCount_append (us vs : List Char) :
    byteCount (us ++ vs) = byteCount us + byteCount vs := by
  rw [byteCount, byteCount, byteCount, List.map_append, List.sum_append]

namespace Tiles

variable {start : Nat} {ts : List Token} {cs : List Char}

theorem ne_empty (h : Tiles start ts cs) : ∀ t ∈ ts, t.text ≠ "" := by
  induction h with
  | nil hgap hback => nofun
  | cons hgap hne hspan hrest ih => exact List.forall_mem_cons.mpr ⟨hne, ih⟩

theorem start_le (h : Tiles start ts cs) : ∀ t ∈ ts, start ≤ t.location.span.start := by
  induction h with
  | nil hgap hback => nofun
  | cons hgap hne hspan hrest ih =>
    refine List.forall_mem_cons.mpr ⟨?_, fun u hu => ?_⟩
    · rw [hspan]
      exact Nat.le_add_right _ _
    · have hle := ih u hu
      rw [hspan] at hle
      dsimp only at hle
      omega

/-- Each token ends before the next one begins. -/
theorem pairwise (h : Tiles start ts cs) :
    ts.Pairwise fun t u => t.location.span.stop ≤ u.location.span.start := by
  induction h with
  | nil hgap hback => exact .nil
  | cons hgap hne hspan hrest ih => exact .cons hrest.start_le ih

/-- Each token takes a part of the text. -/
theorem length_le (h : Tiles start ts cs) : ts.length ≤ cs.length := by
  induction h with
  | nil hgap hback => exact Nat.zero_le _
  | @cons start t ts gap rest hgap hne hspan hrest ih =>
    have htext : t.text.toList ≠ [] := by simpa using hne
    have hpos := List.length_pos_iff.mpr htext
    simp only [List.length_append, List.length_cons]
    omega

theorem span_lt (h : Tiles start ts cs) :
    ∀ t ∈ ts, t.location.span.start < t.location.span.stop := by
  induction h with
  | nil hgap hback => nofun
  | @cons start t ts gap rest hgap hne hspan hrest ih =>
    refine List.forall_mem_cons.mpr ⟨?_, ih⟩
    have hpos : t.text.utf8ByteSize ≠ 0 := by simpa using hne
    rw [hspan]
    dsimp only
    omega

theorem pairwise_start (h : Tiles start ts cs) :
    ts.Pairwise fun t u => t.location.span.start < u.location.span.start :=
  h.pairwise.imp_of_mem fun ht _ hle => (h.span_lt _ ht).trans_le hle

end Tiles

namespace Tokens

theorem tiles_ofCursor (p : Place) (cs : List Char) :
    Tiles p.offset (ofCursor ⟨p, cs⟩).words cs := by
  induction p, cs using ofCursor_induction with
  | ended p us q hus hle hskip =>
    rw [ofCursor_of_skipTrivia_nil hskip]
    rw [← List.append_nil us] at hskip
    obtain ⟨gap, back, rfl, hgap, hback, -⟩ := isGap_of_skipTrivia hskip
    exact .nil hgap hback
  | token p us q a as hus hle hskip ih =>
    obtain ⟨gap, back, hgaps, hgap, -, hrest⟩ := isGap_of_skipTrivia hskip
    obtain rfl : us = gap := by rw [hgaps, hrest (List.cons_ne_nil a as), List.append_nil]
    obtain ⟨hbytes, -⟩ := hus
    obtain ⟨hstop, -⟩ := Passes.pastAll q (Lexeme.scan a as).text
    have hne : String.ofList (Lexeme.scan a as).text ≠ "" := fun h =>
      Lexeme.scan_text_ne_nil a as (String.ofList_eq_empty_iff.mp h)
    rw [ofCursor_of_skipTrivia hskip, ← Lexeme.scan_append a as]
    generalize Lexeme.scan a as = l at *
    have htext : (String.ofList l.text).toList = l.text := String.toList_ofList
    have hcons := @Tiles.cons p.offset ⟨l.kind, String.ofList l.text, q.locate l.text⟩ _ us l.rest
      hgap hne (by rw [Place.locate, hstop, hbytes, byteCount_ofList]) ih
    rwa [htext] at hcons

end Tokens

/-! ### Asking a cursor -/

/-- How a cursor is asked: for a token, which at the end is the token for the end, or for one before
the end. -/
inductive Call where
  | next
  | next?
  deriving DecidableEq, Repr

/-- What a cursor answers to a call. -/
inductive Answer where
  | token (t : Token)
  | item (t : Option Token)
  deriving DecidableEq, Repr

/-- The answer that the tokens have for the call with number `i`: the token with that number, and
behind them the token for the end, or nothing. -/
def Tokens.answer (ts : Tokens) (i : Nat) : Call → Answer
  | .next => .token (ts.words[i]?.getD ts.stop)
  | .next? => .item ts.words[i]?

namespace Cursor

/-- One call: the answer, and the cursor behind what was read. -/
def call (c : Cursor) : Call → Answer × Cursor
  | .next => (.token c.next.1, c.next.2)
  | .next? => (.item c.next?.1, c.next?.2)

/-- Calls one after the other. -/
def answers (c : Cursor) : List Call → List Answer
  | [] => []
  | q :: qs => (c.call q).1 :: (c.call q).2.answers qs

theorem call_snd (c : Cursor) (q : Call) : (c.call q).2 = c.next.2 := by
  cases q <;> rfl

theorem call_fst (c : Cursor) (q : Call) : (c.call q).1 = (Tokens.ofCursor c).answer 0 q := by
  by_cases h : c.next.1.isEof = true
  · rw [Tokens.ofCursor, dif_pos h]
    cases q with
    | next => rfl
    | next? => simp [call, next?, Tokens.answer, h]
  · rw [Tokens.ofCursor, dif_neg h]
    cases q with
    | next => rfl
    | next? => simp [call, next?, Tokens.answer, h]

/-- At the end of the text the cursor stays there. -/
theorem next_of_isEof {c : Cursor} (h : c.next.1.isEof = true) : c.next.2.next = c.next := by
  obtain ⟨p, rest, hskip⟩ : ∃ p rest, c.skipTrivia = ⟨p, rest⟩ := ⟨_, _, rfl⟩
  cases rest with
  | nil =>
    have hnext : c.next.2 = ⟨p, []⟩ := by rw [next, hskip]
    rw [hnext, next, next, hskip]
    rfl
  | cons a cs =>
    rw [next, hskip] at h
    exact absurd (by simpa [Token.isEof] using h) (Lexeme.kind_scan_ne_eof a cs)

/-- Later calls are answered from the tokens behind the next one. -/
theorem answer_next (c : Cursor) (i : Nat) :
    (Tokens.ofCursor c.next.2).answer i = (Tokens.ofCursor c).answer (i + 1) := by
  by_cases h : c.next.1.isEof = true
  · have hagain : c.next.2.next.1.isEof = true := by rwa [next_of_isEof h]
    rw [Tokens.ofCursor, dif_pos hagain, Tokens.ofCursor, dif_pos h, next_of_isEof h]
    funext q
    cases q <;> rfl
  · rw [Tokens.ofCursor.eq_def c, dif_neg h]
    funext q
    cases q <;> rfl

/-- The answers are the tokens in order, for ever. -/
theorem answers_eq (c : Cursor) (calls : List Call) :
    c.answers calls = calls.mapIdx (Tokens.ofCursor c).answer := by
  induction calls generalizing c with
  | nil => rfl
  | cons q qs ih =>
    have hlater : (fun i => (Tokens.ofCursor c.next.2).answer i) =
        fun i => (Tokens.ofCursor c).answer (i + 1) := funext c.answer_next
    rw [answers, List.mapIdx_cons, call_fst, call_snd, ih]
    exact congrArg (_ :: List.mapIdx · qs) hlater

end Cursor

/-! ### The tokens of a source -/

theorem Tokens.span_stop (p : Place) (cs : List Char) :
    (ofCursor ⟨p, cs⟩).stop.location.span = .empty (p.offset + byteCount cs) := by
  induction p, cs using ofCursor_induction with
  | ended p us q hus hle hskip =>
    obtain ⟨hbytes, -⟩ := hus
    rw [ofCursor_of_skipTrivia_nil hskip, ← hbytes]
    rfl
  | token p us q a as hus hle hskip ih =>
    obtain ⟨hbytes, -⟩ := hus.append (Passes.pastAll q (Lexeme.scan a as).text)
    rw [ofCursor_of_skipTrivia hskip]
    refine ih.trans ?_
    rw [hbytes, Nat.add_assoc, ← byteCount_append, List.append_assoc, Lexeme.scan_append]

/-- Reading tokens loses nothing. The words of a source make it up together with trivia; each of
them is the piece of the source at its span, which is not empty and ends before the next one begins.
The token for the end stands behind everything, and a cursor that is asked in either way, in any
order, hands out these tokens. -/
theorem Tokens.tiles_ofString (source : String) :
    let ts : Tokens := ofString source
    Tiles 0 ts.words source.toList ∧ ts.words.length ≤ source.length ∧
      (∀ t ∈ ts.words, t.kind ≠ .eof ∧ t.text ≠ "" ∧
        t.location.span.start < t.location.span.stop ∧ ∃ front back : String,
          source = front ++ t.text ++ back ∧
          t.location.span = ⟨front.utf8ByteSize, (front ++ t.text).utf8ByteSize⟩) ∧
      ts.words.Pairwise (fun t u => t.location.span.stop ≤ u.location.span.start) ∧
      (ts.stop.kind = .eof ∧ ts.stop.text = "" ∧
        ts.stop.location.span = .empty source.utf8ByteSize) ∧
      ∀ calls, (Cursor.ofString source).answers calls = calls.mapIdx ts.answer := by
  intro ts
  have htiles : Tiles 0 ts.words source.toList := tiles_ofCursor .start source.toList
  refine ⟨htiles, htiles.length_le, fun t ht => ⟨?_, htiles.ne_empty t ht, htiles.span_lt t ht, ?_⟩,
    htiles.pairwise, ⟨?_, ?_, ?_⟩, Cursor.answers_eq _⟩
  · obtain ⟨c, cs, hkind, -⟩ := isCut_words (.ofString source) t ht
    rw [hkind]
    exact Lexeme.kind_scan_ne_eof c cs
  · exact exists_of_mem_ofString (List.mem_append_left _ ht)
  · exact congrArg Prod.fst (spelling_stop .start source.toList)
  · exact congrArg Prod.snd (spelling_stop .start source.toList)
  · rw [← byteCount_toList, ← Nat.zero_add (byteCount _)]
    exact span_stop .start source.toList

/-- A byte order mark, a character outside the language, a comment and a string that breaks off. -/
theorem Tokens.tiles_ofString_broken :
    let source := "\uFEFFtype ☃#é\n\"a"
    let t : Token := ⟨.error, "☃", ⟨⟨1, 6⟩, ⟨8, 11⟩⟩⟩
    let stop : Token := ⟨.eof, "", ⟨⟨2, 3⟩, ⟨17, 17⟩⟩⟩
    t ∈ (ofString source).words ∧ (∃ front back : String, source = front ++ "☃" ++ back ∧
        Span.mk 8 11 = ⟨front.utf8ByteSize, (front ++ "☃").utf8ByteSize⟩) ∧
      ∃ a b, (Cursor.ofString source).answers [.next, .next?, .next, .next?, .next, .next] =
        [.token a, .item (some t), .token b, .item none, .token stop, .token stop] := by
  intro source t stop
  obtain ⟨-, -, hwords, -, -, hanswers⟩ := tiles_ofString source
  have hread : ofString source = ⟨[⟨.keyword .type, "type", ⟨⟨1, 1⟩, ⟨3, 7⟩⟩⟩, t,
      ⟨.error, "\"a", ⟨⟨2, 1⟩, ⟨15, 17⟩⟩⟩], stop⟩ := by decide +kernel
  have ht : t ∈ (ofString source).words := by rw [hread]; decide
  obtain ⟨-, -, -, hpiece⟩ := hwords t ht
  exact ⟨ht, hpiece, _, _, by rw [hanswers, hread]; rfl⟩

end SchemaLang
