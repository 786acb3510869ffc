import SchemaLang.Proofs.Reader.Ensures
import SchemaLang.Proofs.Text.Cut
import SchemaLang.Proofs.Text.Places

/-! Texts that differ in their layout only. Trivia show where the token before them ends, whatever
they are, so a text that writes the words of another one with other trivia between them has the
same tokens. They stand elsewhere, but one after the other in both texts. -/

namespace SchemaLang

/-! ### Layout -/

/-- What may stand between two tokens: separators, byte order marks, and comments, each with the
line feed that ends it. -/
inductive IsTrivia : List Char → Prop
  | nil : IsTrivia []
  | separator {c : Char} {cs : List Char} (hc : isSeparator c = true) (hcs : IsTrivia cs) :
      IsTrivia (c :: cs)
  | mark {cs : List Char} (hcs : IsTrivia cs) : IsTrivia (byteOrderMark :: cs)
  | comment {note cs : List Char} (hnote : '\n' ∉ note) (hcs : IsTrivia cs) :
      IsTrivia ('#' :: (note ++ '\n' :: cs))

/-- Nothing, or a comment that ends with the text. -/
def EndsText (cs : List Char) : Prop := cs = [] ∨ ∃ note, '\n' ∉ note ∧ cs = '#' :: note

/-- The text writes the words in their order, with trivia behind each of them. Behind the last one
there may be none, and the text may end with a comment. -/
inductive Writes : List String → List Char → Prop
  | nil {back : List Char} (hback : EndsText back) : Writes [] back
  | cons {w : String} {ws : List String} {gap rest : List Char} (hgap : IsTrivia gap)
      (hne : ws ≠ [] → gap ≠ []) (hrest : Writes ws rest) :
      Writes (w :: ws) (w.toList ++ gap ++ rest)

/-- The source writes the words in their order, and besides there are only trivia in it: some
between each two words, and any before the first one and behind the last one. -/
def Spaces (words : List String) (source : String) : Prop :=
  ∃ front body, source.toList = front ++ body ∧ IsTrivia front ∧ Writes words body

/-! ### Trivia end what is before them -/

open Lexeme (Delimited)

theorem EndsText.delimited {cs : List Char} (h : EndsText cs) : Delimited cs := by
  obtain rfl | ⟨note, -, rfl⟩ := h
  · exact .nil
  · rw [Lexeme.delimited_cons]
    decide

theorem IsTrivia.delimited {cs : List Char} (h : IsTrivia cs) (hne : cs ≠ []) (rest : List Char) :
    Delimited (cs ++ rest) := by
  cases h with
  | nil => exact absurd rfl hne
  | separator hc => exact Lexeme.delimited_of_isSeparator hc _
  | mark =>
    rw [List.cons_append, Lexeme.delimited_cons]
    decide
  | comment =>
    rw [List.cons_append, Lexeme.delimited_cons]
    decide

namespace Lexeme

variable {c : Char} {cs rest : List Char}

theorem isPlain_numberKind {fraction exponent : List Char}
    (h : numberKind fraction exponent ≠ .error) : IsPlain (numberKind fraction exponent) := by
  unfold numberKind at *
  split_ifs at * <;> simp_all [IsPlain]

theorem isPlain_number (h : (number cs).kind ≠ .error) : IsPlain (number cs).kind := by
  unfold number at *
  dsimp only at *
  split at h
  next => exact absurd rfl h
  next hne =>
    rw [if_neg hne]
    exact isPlain_numberKind h

theorem isPlain_wordKind (w : List Char) : IsPlain (wordKind w) := by
  unfold wordKind
  split <;> exact .inl rfl

/-- A lexeme that is no mark, no string and no error is a word or a number. -/
theorem isPlain_scan (hm : Mark.ofChar? c = none) (hq : c ≠ '"') (h : (scan c cs).kind ≠ .error) :
    IsPlain (scan c cs).kind := by
  simp only [scan, hm, if_neg hq] at h ⊢
  split_ifs at h ⊢
  · exact isPlain_number h
  · exact isPlain_wordKind _
  · exact absurd rfl h

/-- A lexeme that is no error is the same one before any delimiter. -/
theorem scan_delimited (h : (scan c cs).kind ≠ .error) (hrest : Delimited rest) :
    scan c ((scan c cs).text.tail ++ rest) = ⟨(scan c cs).kind, (scan c cs).text, rest⟩ := by
  cases hm : Mark.ofChar? c with
  | some m => simp only [scan, hm, List.tail_cons, List.nil_append]
  | none =>
    by_cases hq : c = '"'
    · -- the string alone is that string, and a closed string takes nothing from behind
      have hscan : ∀ ds, scan c ds = string ds := fun ds => by simp only [scan, hm, if_pos hq]
      have halone := @local_scan cs [] (scan c cs).rest c rfl
      rw [List.append_nil, hscan] at halone
      rw [hscan, string_append_more (by rwa [halone]) fun d hd => (hrest d hd).2.2, halone]
      rfl
    · obtain ⟨d, ds, htext, hrelex⟩ := relexes_scan (isPlain_scan hm hq h)
      have hhead := head?_text_scan c cs
      rw [htext, List.head?_cons] at hhead
      obtain rfl : d = c := Option.some.inj hhead
      rw [htext, List.tail_cons]
      exact hrelex rest hrest

end Lexeme

/-! ### Passing over trivia -/

namespace Cursor

/-- A comment goes on up to a line feed. -/
theorem skipFrom_note (p : Place) {note : List Char} (h : '\n' ∉ note) (rest : List Char) :
    skipFrom true p (note ++ rest) = skipFrom true (p.pastAll note) rest := by
  induction note generalizing p with
  | nil => rfl
  | cons c note ih =>
    obtain ⟨hc, hnote⟩ := not_or.mp (List.mem_cons.not.mp h)
    have hfeed : (c != '\n') = true := bne_iff_ne.mpr (Ne.symm hc)
    rw [List.cons_append, skipFrom, hfeed, Bool.and_self, if_pos rfl, ih _ hnote]
    rfl

/-- Passing over trivia only moves the place. -/
theorem skipTrivia_of_isTrivia {cs : List Char} (h : IsTrivia cs) (p : Place) (rest : List Char) :
    ∃ q, (Cursor.mk p (cs ++ rest)).skipTrivia = (Cursor.mk q rest).skipTrivia := by
  induction h generalizing p with
  | nil => exact ⟨p, rfl⟩
  | @separator c cs hc hcs ih =>
    obtain ⟨q, hq⟩ := ih (p.past c)
    refine ⟨q, Eq.trans ?_ hq⟩
    simp [skipTrivia, skipFrom, hc]
  | @mark cs hcs ih =>
    obtain ⟨q, hq⟩ := ih p.pastByteOrderMark
    refine ⟨q, Eq.trans ?_ hq⟩
    simp [skipTrivia, skipFrom, isSeparator, byteOrderMark]
  | @comment note cs hnote hcs ih =>
    obtain ⟨q, hq⟩ := ih (((p.past '#').pastAll note).past '\n')
    refine ⟨q, Eq.trans ?_ hq⟩
    rw [List.cons_append, List.append_assoc]
    change skipFrom true (p.past '#') (note ++ '\n' :: (cs ++ rest)) = _
    rw [skipFrom_note _ hnote]
    rfl

theorem skipTrivia_of_endsText {cs : List Char} (h : EndsText cs) (p : Place) :
    ∃ q, (Cursor.mk p cs).skipTrivia = ⟨q, []⟩ := by
  obtain rfl | ⟨note, hnote, rfl⟩ := h
  · exact ⟨p, rfl⟩
  · refine ⟨(p.past '#').pastAll note, ?_⟩
    change skipFrom true (p.past '#') note = _
    have hskip := skipFrom_note (p.past '#') hnote []
    rwa [List.append_nil] at hskip

end Cursor

/-! ### The same tokens -/

namespace Tokens

theorem spelling_stop (p : Place) (cs : List Char) :
    (ofCursor ⟨p, cs⟩).stop.spelling = (.eof, "") := by
  induction p, cs using ofCursor_induction with
  | ended p us q hus hle hskip => rw [ofCursor_of_skipTrivia_nil hskip]; rfl
  | token p us q a as hus hle hskip ih => rw [ofCursor_of_skipTrivia hskip]; exact ih

/-- A text that writes the words of some tokens has tokens of the same kinds and words. -/
theorem spelling_words_of_writes {ts : List Token} (hcut : ∀ t ∈ ts, t.IsCut)
    (hts : ∀ t ∈ ts, t.kind ≠ .error) {front body : List Char} (hfront : IsTrivia front)
    (hbody : Writes (ts.map Token.text) body) (p : Place) :
    (ofCursor ⟨p, front ++ body⟩).words.map Token.spelling = ts.map Token.spelling := by
  induction ts generalizing front body p with
  | nil =>
    cases hbody with
    | nil hback =>
    obtain ⟨q, hq⟩ := Cursor.skipTrivia_of_isTrivia hfront p body
    obtain ⟨r, hr⟩ := Cursor.skipTrivia_of_endsText hback q
    rw [words_of_skipTrivia_nil (hq.trans hr), List.map_nil]
  | cons t ts ih =>
    obtain ⟨⟨c, cs, hkind, htext⟩, hcut⟩ := List.forall_mem_cons.mp hcut
    obtain ⟨ht, hts⟩ := List.forall_mem_cons.mp hts
    rw [List.map_cons] at hbody
    cases hbody with
    | @cons _ _ gap rest hgap hne hrest =>
    have hdelimited : Delimited (gap ++ rest) := by
      by_cases hnil : gap = []
      · -- then there is no more word, and the text ends
        have hlast : ts = [] := by
          by_contra hts
          exact hne (by simpa using hts) hnil
        subst hnil hlast
        cases hrest with
        | nil hback => exact hback.delimited
      · exact hgap.delimited hnil _
    rw [hkind] at ht
    have hscan := Lexeme.scan_delimited ht hdelimited
    have hword := Lexeme.cons_tail_of_append (Lexeme.scan_append c cs)
      (Lexeme.scan_text_ne_nil c cs)
    have hbody : t.text.toList ++ gap ++ rest =
        c :: ((Lexeme.scan c cs).text.tail ++ (gap ++ rest)) := by
      rw [htext, String.toList_ofList, List.append_assoc, ← List.cons_append, hword]
    obtain ⟨q, hq⟩ := Cursor.skipTrivia_of_isTrivia hfront p (t.text.toList ++ gap ++ rest)
    rw [hbody, Cursor.skipTrivia_cons (Lexeme.not_trivia_of_kind_ne_error (by rwa [hscan]))] at hq
    rw [hbody, ofCursor_of_skipTrivia hq, hscan, List.map_cons, List.map_cons]
    dsimp only
    rw [ih hcut hts hgap hrest, Token.spelling, Token.spelling, hkind, htext]

/-! ### At other places -/

/-- Of locations among those of some tokens, what comes first does so at the places `f` tells. -/
def KeepsOrder (f : Location → Location) (ts : List Token) : Prop :=
  ∀ t ∈ ts, ∀ u ∈ ts,
    (f t.location).position.le (f u.location).position = t.location.position.le u.location.position

/-- Tokens of the same kinds and words, one after the other in either text, are the same tokens at
other places. -/
theorem exists_place {ts us : List Token}
    (hts : ts.Pairwise fun t u => u.location.position.le t.location.position = false)
    (hus : us.Pairwise fun t u => u.location.position.le t.location.position = false)
    (h : us.map Token.spelling = ts.map Token.spelling) :
    ∃ f, us = ts.map (Token.place f) ∧ KeepsOrder f ts := by
  induction ts generalizing us with
  | nil =>
    rw [List.map_nil, List.map_eq_nil_iff] at h
    exact ⟨id, h, nofun⟩
  | cons t ts ih =>
    rw [List.map_cons] at h
    obtain ⟨u, us, rfl, hu, h⟩ := List.map_eq_cons_iff.mp h
    obtain ⟨ht, hts⟩ := List.pairwise_cons.mp hts
    obtain ⟨hlater, hus⟩ := List.pairwise_cons.mp hus
    obtain ⟨f, rfl, hf⟩ := ih hts hus h
    have hg : ∀ v ∈ ts, Function.update f t.location u.location v.location = f v.location := by
      intro v hv
      apply Function.update_of_ne
      intro heq
      have hlt := ht v hv
      rw [heq, Position.le_refl] at hlt
      cases hlt
    have hmoved : ∀ v ∈ ts, (f v.location).position.le u.location.position = false := fun v hv =>
      hlater _ (List.mem_map_of_mem hv)
    refine ⟨Function.update f t.location u.location, ?_, fun v hv w hw => ?_⟩
    · rw [List.map_cons, Token.place, Function.update_self]
      obtain ⟨hkind, htext⟩ := Prod.mk.inj hu
      refine List.cons_eq_cons.mpr ⟨?_, List.map_congr_left fun v hv => ?_⟩
      · rw [← hkind, ← htext]
      · rw [Token.place, Token.place, hg v hv]
    · rcases List.mem_cons.mp hv with rfl | hv' <;> rcases List.mem_cons.mp hw with rfl | hw'
      · rw [Position.le_refl, Position.le_refl]
      · rw [Function.update_self, hg w hw', Position.le_of_lt (hmoved w hw'),
          Position.le_of_lt (ht w hw')]
      · rw [Function.update_self, hg v hv', hmoved v hv', ht v hv']
      · rw [hg v hv', hg w hw', hf v hv' w hw']

/-- Sources that differ in their layout only have the same tokens, in the same order. -/
theorem exists_place_of_spaces {source source' : String}
    (hwords : ∀ t ∈ (ofString source).words, t.kind ≠ .error)
    (h : Spaces ((ofString source).words.map Token.text) source') :
    ∃ f, ofString source' = (ofString source).place f ∧ KeepsOrder f (ofString source).toList := by
  obtain ⟨front, body, hsource, hfront, hbody⟩ := h
  have hcut : ∀ t ∈ (ofString source).words, t.IsCut := isCut_words (.ofString source)
  have hspelling := spelling_words_of_writes hcut hwords hfront hbody .start
  rw [← hsource] at hspelling
  change (ofString source').words.map Token.spelling = _ at hspelling
  have hstop : (ofString source').stop.spelling = (ofString source).stop.spelling :=
    (spelling_stop _ _).trans (spelling_stop _ _).symm
  have hall : (ofString source').toList.map Token.spelling =
      (ofString source).toList.map Token.spelling := by
    rw [toList, toList, List.map_append, List.map_append, hspelling, List.map_singleton, hstop,
      List.map_singleton]
  obtain ⟨f, hplace, horder⟩ := exists_place (pairwise_position _ _) (pairwise_position _ _) hall
  refine ⟨f, ?_, horder⟩
  have hlast : (ofString source').words ++ [(ofString source').stop] =
      (ofString source).words.map (Token.place f) ++ [(ofString source).stop.place f] :=
    hplace.trans List.map_append
  obtain ⟨hsame, hend⟩ := List.append_inj' hlast rfl
  rw [place, ← hsame, ← List.singleton_inj.mp hend]

end Tokens

end SchemaLang
