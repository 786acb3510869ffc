import Mathlib.Algebra.Ring.Nat
import SchemaLang.Proofs.Pieces
import SchemaLang.Proofs.Text.Behind

/-! The tokens of two texts on lines of their own. They are the tokens of the first text, and
behind them those of the second one, moved by the lines and bytes of the first, as long as no
string of the first text breaks off. -/

namespace SchemaLang

/-! ### Moving -/

/-- How far a text is moved. -/
structure Shift where
  lines : Nat
  bytes : Nat

def Place.move (m : Shift) (p : Place) : Place :=
  ⟨p.offset + m.bytes, ⟨p.position.line + m.lines, p.position.column⟩⟩

def Location.move (m : Shift) (l : Location) : Location :=
  ⟨⟨l.position.line + m.lines, l.position.column⟩, ⟨l.span.start + m.bytes, l.span.stop + m.bytes⟩⟩

/-- The token at another place. -/
def Token.place (f : Location → Location) (t : Token) : Token := { t with location := f t.location }

def Tokens.place (f : Location → Location) (ts : Tokens) : Tokens :=
  ⟨ts.words.map (Token.place f), ts.stop.place f⟩

namespace Place

variable {m : Shift} {p : Place}

theorem past_move (c : Char) : (p.move m).past c = (p.past c).move m := by
  simp only [past, move]
  split <;> simp only [mk.injEq, Position.mk.injEq, and_true] <;> omega

theorem pastByteOrderMark_move : (p.move m).pastByteOrderMark = p.pastByteOrderMark.move m := by
  simp only [pastByteOrderMark, move, mk.injEq, and_true]
  omega

theorem pastAll_move (cs : List Char) : (p.move m).pastAll cs = (p.pastAll cs).move m := by
  induction cs generalizing p with
  | nil => rfl
  | cons c cs ih => rw [pastAll, List.foldl_cons, past_move]; exact ih

theorem locate_move (cs : List Char) : (p.move m).locate cs = (p.locate cs).move m := by
  rw [locate, pastAll_move]
  rfl

end Place

def Cursor.move (m : Shift) (c : Cursor) : Cursor := ⟨c.place.move m, c.rest⟩

theorem Cursor.skipFrom_move (m : Shift) (b : Bool) (p : Place) (cs : List Char) :
    skipFrom b (p.move m) cs = (skipFrom b p cs).move m := by
  fun_induction skipFrom b p cs <;>
    simp_all [skipFrom, Place.past_move, Place.pastByteOrderMark_move, move]

theorem Cursor.next_move (m : Shift) (c : Cursor) :
    (c.move m).next = (c.next.1.place (Location.move m), c.next.2.move m) := by
  have hskip : (c.move m).skipTrivia = c.skipTrivia.move m := skipFrom_move m false c.place c.rest
  unfold next
  rw [hskip]
  generalize c.skipTrivia = d
  obtain ⟨p, cs⟩ := d
  dsimp only [move]
  cases cs with
  | nil => rw [Place.locate_move]; rfl
  | cons a cs => simp only [Place.locate_move, Place.pastAll_move]; rfl

/-- The tokens of a text do not depend on where it begins, but for their places. -/
theorem Tokens.ofCursor_move (m : Shift) (c : Cursor) :
    ofCursor (c.move m) = (ofCursor c).place (Location.move m) := by
  induction c using ofCursor.induct with
  | case1 c heof =>
    have hmove : (c.move m).next.1.isEof = true := by rw [Cursor.next_move]; exact heof
    rw [ofCursor, dif_pos hmove, ofCursor, dif_pos heof, Cursor.next_move]
    rfl
  | case2 c heof ih =>
    have hmove : ¬ (c.move m).next.1.isEof = true := by rw [Cursor.next_move]; exact heof
    rw [ofCursor, dif_neg hmove, ofCursor.eq_def c, dif_neg heof, Cursor.next_move]
    dsimp only
    rw [ih]
    rfl

/-! ### Passing over text -/

def byteCount (cs : List Char) : Nat := (cs.map Char.utf8Size).sum

theorem byteCount_ofList (cs : List Char) : (String.ofList cs).utf8ByteSize = byteCount cs := by
  induction cs with
  | nil => rfl
  | cons c cs ih =>
    have hc : (String.ofList [c]).utf8ByteSize = c.utf8Size := String.utf8ByteSize_singleton
    rw [← List.singleton_append, String.ofList_append, String.utf8ByteSize_append, ih, hc]
    simp [byteCount]

theorem byteCount_toList (s : String) : byteCount s.toList = s.utf8ByteSize := by
  rw [← byteCount_ofList, String.ofList_toList]

def feedCount (cs : List Char) : Nat := cs.count '\n'

/-- The place `q` is behind the text `cs` if `p` is before it, as lines and bytes are counted. -/
def Passes (p : Place) (cs : List Char) (q : Place) : Prop :=
  q.offset = p.offset + byteCount cs ∧ q.position.line = p.position.line + feedCount cs

namespace Passes

variable {p q r : Place} {cs ds : List Char}

theorem nil (p : Place) : Passes p [] p := ⟨rfl, rfl⟩

theorem append (h : Passes p cs q) (h' : Passes q ds r) : Passes p (cs ++ ds) r := by
  obtain ⟨ho, hl⟩ := h
  obtain ⟨ho', hl'⟩ := h'
  constructor
  · rw [ho', ho, byteCount, byteCount, byteCount, List.map_append, List.sum_append]
    omega
  · rw [hl', hl, feedCount, feedCount, feedCount, List.count_append]
    omega

theorem past (p : Place) (c : Char) : Passes p [c] (p.past c) := by
  constructor
  · simp [Place.past, byteCount]
  · rw [Place.past, feedCount, List.count_singleton]
    by_cases hc : c = '\n' <;> simp [hc]

theorem pastByteOrderMark (p : Place) : Passes p [byteOrderMark] p.pastByteOrderMark := ⟨rfl, rfl⟩

theorem pastAll (p : Place) (cs : List Char) : Passes p cs (p.pastAll cs) := by
  induction cs generalizing p with
  | nil => exact nil p
  | cons c cs ih => exact (past p c).append (ih (p.past c))

theorem skipFrom (b : Bool) (p : Place) (cs : List Char) :
    ∃ us, us ++ (Cursor.skipFrom b p cs).rest = cs ∧
      Passes p us (Cursor.skipFrom b p cs).place := by
  fun_induction Cursor.skipFrom b p cs with
  | case1 b p => exact ⟨[], rfl, nil p⟩
  | case2 b p c cs h ih =>
    obtain ⟨us, heq, hus⟩ := ih
    exact ⟨c :: us, congrArg (c :: ·) heq, (past p c).append hus⟩
  | case3 b p c cs h h' ih =>
    obtain ⟨us, heq, hus⟩ := ih
    exact ⟨c :: us, congrArg (c :: ·) heq, (past p c).append hus⟩
  | case4 b p cs h h' ih =>
    obtain ⟨us, heq, hus⟩ := ih
    exact ⟨'#' :: us, congrArg ('#' :: ·) heq, (past p '#').append hus⟩
  | case5 b p cs h h' h'' ih =>
    obtain ⟨us, heq, hus⟩ := ih
    exact ⟨byteOrderMark :: us, congrArg (byteOrderMark :: ·) heq, (pastByteOrderMark p).append hus⟩
  | case6 b p c cs => exact ⟨[], rfl, nil p⟩

end Passes

/-! ### Two texts -/

/-- Trivia at the end of a text and behind it, after a line feed, are passed over together. -/
theorem Cursor.skipFrom_append (b : Bool) (p : Place) (as bs : List Char) :
    skipFrom b p (as ++ '\n' :: bs) =
      if (skipFrom b p as).rest = [] then skipFrom false ((skipFrom b p as).place.past '\n') bs
      else ⟨(skipFrom b p as).place, (skipFrom b p as).rest ++ '\n' :: bs⟩ := by
  fun_induction skipFrom b p as with
  | case1 b p => simp [skipFrom, isSeparator]
  | case2 b p c cs h ih => rw [List.cons_append, skipFrom, if_pos h, ih]
  | case3 b p c cs h hs ih => rw [List.cons_append, skipFrom, if_neg h, if_pos hs, ih]
  | case4 b p cs h hs ih => rw [List.cons_append, skipFrom, if_neg h, if_neg hs, if_pos rfl, ih]
  | case5 b p cs h hs hc ih =>
    rw [List.cons_append, skipFrom, if_neg h, if_neg hs, if_neg hc, if_pos rfl, ih]
  | case6 b p c cs h hs hc hm =>
    rw [List.cons_append, skipFrom, if_neg h, if_neg hs, if_neg hc, if_neg hm,
      if_neg (List.cons_ne_nil c cs)]

theorem Lexeme.kind_scan_ne_eof (c : Char) (cs : List Char) : (scan c cs).kind ≠ .eof := by
  unfold scan
  split
  next => nofun
  next =>
    split
    next => rcases kind_string cs with h | h | h <;> simp [h]
    next =>
      split
      next =>
        unfold number numberKind
        dsimp only
        split
        next => nofun
        next => split <;> split <;> nofun
      next =>
        split
        next => unfold word wordKind; dsimp only; split <;> nofun
        next => nofun

theorem Tokens.ofCursor_of_skipTrivia {c : Cursor} {p : Place} {a : Char} {cs : List Char}
    (h : c.skipTrivia = ⟨p, a :: cs⟩) :
    ofCursor c =
      let l := Lexeme.scan a cs
      let rest := ofCursor ⟨p.pastAll l.text, l.rest⟩
      ⟨⟨l.kind, String.ofList l.text, p.locate l.text⟩ :: rest.words, rest.stop⟩ := by
  have hnext : c.next = (⟨(Lexeme.scan a cs).kind, String.ofList (Lexeme.scan a cs).text,
      p.locate (Lexeme.scan a cs).text⟩,
      ⟨p.pastAll (Lexeme.scan a cs).text, (Lexeme.scan a cs).rest⟩) := by
    rw [Cursor.next, h]
  have heof : ¬ c.next.1.isEof = true := by
    rw [hnext]
    simpa [Token.isEof] using Lexeme.kind_scan_ne_eof a cs
  rw [ofCursor, dif_neg heof, hnext]

/-- Trivia have no tokens. -/
theorem Tokens.words_of_skipTrivia_nil {c : Cursor} {p : Place} (h : c.skipTrivia = ⟨p, []⟩) :
    (ofCursor c).words = [] := by
  have hsame : c.skipTrivia = (Cursor.mk p []).skipTrivia := h
  rw [ofCursor_eq_of_next (Cursor.next_eq_of_skipTrivia hsame), words_ofCursor_nil]

/-- A string that breaks off. -/
def Token.IsBroken (t : Token) : Prop := t.kind = .error ∧ t.text.toList.head? = some '"'

theorem Lexeme.head?_text_scan (a : Char) (cs : List Char) : (scan a cs).text.head? = some a := by
  obtain ⟨b, bs, hb⟩ := List.exists_cons_of_ne_nil (scan_text_ne_nil a cs)
  have happ := scan_append a cs
  rw [hb, List.cons_append] at happ
  rw [hb, List.head?_cons, (List.cons.inj happ).1]

/-- The tokens of a text with a line feed and another text behind it, if no string breaks off. -/
theorem Tokens.ofCursor_append (p : Place) (as bs : List Char)
    (h : ∀ t ∈ (ofCursor ⟨p, as⟩).words, ¬ t.IsBroken) :
    ∃ q, Passes p as q ∧ ofCursor ⟨p, as ++ '\n' :: bs⟩ =
      ⟨(ofCursor ⟨p, as⟩).words ++ (ofCursor ⟨q.past '\n', bs⟩).words,
        (ofCursor ⟨q.past '\n', bs⟩).stop⟩ := by
  induction hn : as.length using Nat.strongRecOn generalizing as p with
  | _ n ih =>
    obtain ⟨us, heq, hus⟩ := Passes.skipFrom false p as
    have hskip := Cursor.skipFrom_append false p as bs
    generalize hc : Cursor.skipFrom false p as = c at *
    obtain ⟨q, rest⟩ := c
    cases rest with
    | nil =>
      rw [if_pos rfl] at hskip
      rw [List.append_nil] at heq
      subst heq
      have hnil : (ofCursor ⟨p, us⟩).words = [] := words_of_skipTrivia_nil hc
      have hsame : (Cursor.mk p (us ++ '\n' :: bs)).skipTrivia =
          (Cursor.mk (q.past '\n') bs).skipTrivia := hskip
      refine ⟨q, hus, ?_⟩
      rw [hnil, List.nil_append, ofCursor_eq_of_next (Cursor.next_eq_of_skipTrivia hsame)]
    | cons a cs =>
      rw [if_neg (List.cons_ne_nil a cs)] at hskip
      have hwords := ofCursor_of_skipTrivia (c := ⟨p, as⟩) hc
      have hlonger := ofCursor_of_skipTrivia
        (show (Cursor.mk p (as ++ '\n' :: bs)).skipTrivia = ⟨q, a :: (cs ++ '\n' :: bs)⟩ from hskip)
      rw [hwords] at h
      have hscan : Lexeme.scan a (cs ++ '\n' :: bs) = (Lexeme.scan a cs).before ('\n' :: bs) := by
        refine Lexeme.scan_append_more (fun ha he => ?_) (by simp [Lexeme.Feeds])
        refine h _ List.mem_cons_self ⟨he, ?_⟩
        rw [String.toList_ofList, Lexeme.head?_text_scan, ha]
      have hlen := Lexeme.length_scan_rest_le a cs
      have hnlen : us.length + (cs.length + 1) = n := by
        rw [← hn, ← heq, List.length_append, List.length_cons]
      obtain ⟨r, hr, hrest⟩ := ih _ (by omega) (q.pastAll (Lexeme.scan a cs).text)
        (Lexeme.scan a cs).rest (fun t ht => h t (List.mem_cons_of_mem _ ht)) rfl
      refine ⟨r, ?_, ?_⟩
      · rw [← heq, ← Lexeme.scan_append a cs]
        exact hus.append ((Passes.pastAll q _).append hr)
      · rw [hlonger, hscan, hwords]
        dsimp only [Lexeme.before]
        rw [hrest]
        rfl

/-- How far a second text is moved that stands behind `source` and a line feed. -/
def behind (source : String) : Shift where
  lines := feedCount source.toList + 1
  bytes := byteCount source.toList + 1

/-- The tokens of two texts with a line feed between them. -/
theorem Tokens.ofString_append (a b : String) (h : ∀ t ∈ (ofString a).words, ¬ t.IsBroken) :
    ofString (a ++ "\n" ++ b) =
      let moved := (ofString b).place (Location.move (behind a))
      ⟨(ofString a).words ++ moved.words, moved.stop⟩ := by
  obtain ⟨q, ⟨ho, hl⟩, hof⟩ := ofCursor_append .start a.toList b.toList h
  have hq : q.past '\n' = Place.start.move (behind a) := by
    have hsize : '\n'.utf8Size = 1 := by decide
    simp only [Place.past, if_pos, ho, hl, hsize, Place.move, behind, Place.start, Position.start,
      Place.mk.injEq, Position.mk.injEq, and_true]
    omega
  have htext : (a ++ "\n" ++ b).toList = a.toList ++ '\n' :: b.toList := by simp
  have hmove : ofCursor ⟨Place.start.move (behind a), b.toList⟩ =
      (ofString b).place (Location.move (behind a)) := ofCursor_move (behind a) (.ofString b)
  rw [ofString, Cursor.ofString, htext, hof, hq, hmove]
  rfl

end SchemaLang
