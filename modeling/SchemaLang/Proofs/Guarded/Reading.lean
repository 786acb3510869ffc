import SchemaLang.Proofs.Guarded.Scan
import SchemaLang.Proofs.Passes

/-! Reading with guards. The value of a string is decoded from a slice of its token, without the
quotes at both ends; open braces are counted in a word; and where a statement begins there is no
branch for a keyword that begins none. The slices rest on what the scanner promises of the tokens:
a string token ends with the quotes that it begins with, and the ones do not overlap the others. -/

namespace SchemaLang

open Guarded

/-! ### Values of strings -/

namespace Block

/-- The indentation of a line: the bytes that it has more than what comes behind. -/
def guardedIndentOf (line : List Char) : Guarded Nat :=
  sub (byteCount line) (byteCount (line.dropWhile fun c => c = ' ' || c = '\t'))

def guardedDecode (body : List Char) : Guarded (List Char) := do
  let ls := lines (unescapeQuotes body)
  let indents ← (ls.tail.filter (!isBlank ·)).mapM guardedIndentOf
  let cut (l : List Char) : List Char := (dropBytes? (indents.min?.getD 0) l).getD []
  return joinLines (trimBlank (ls.take 1 ++ ls.tail.map cut))

theorem guardedIndentOf_eq (line : List Char) : guardedIndentOf line = .ok (indentOf line) := by
  have happ := List.takeWhile_append_dropWhile (p := fun c => c = ' ' || c = '\t') (l := line)
  have hascii : ∀ c ∈ line.takeWhile fun c => c = ' ' || c = '\t', IsAscii c := by
    intro c hc
    have htest := List.mem_takeWhile_imp hc
    simp only [Bool.or_eq_true, decide_eq_true_eq] at htest
    rcases htest with rfl | rfl <;> decide
  have hcount := congrArg byteCount happ
  rw [byteCount_append, byteCount_of_isAscii hascii] at hcount
  rw [guardedIndentOf, sub_of_le (by omega), indentOf]
  exact congrArg Except.ok (by omega)

theorem guardedDecode_eq (body : List Char) : guardedDecode body = .ok (decode body) := by
  have hindents (ls : List (List Char)) : ls.mapM guardedIndentOf = .ok (ls.map indentOf) := by
    rw [funext guardedIndentOf_eq]
    exact List.mapM_pure
  rw [guardedDecode]
  dsimp only
  rw [hindents, ok_bind, decode]
  cases lines (unescapeQuotes body) <;> rfl

end Block

/-- The slice of a text without `n` bytes at each end. -/
def trimEnds (n : Nat) (text : List Char) : Guarded (List Char) := do
  slice text n (← sub (byteCount text) n)

/-- The value of a string literal, from its text without the quotes at both ends. -/
def Token.guardedString (t : Token) : Guarded String :=
  match t.kind with
  | .string => do return .ofList (Quoted.decode (← trimEnds 1 t.text.toList))
  | .blockString => do return .ofList (← Block.guardedDecode (← trimEnds 3 t.text.toList))
  | _ => throw .unreachable

theorem Lexicon.EndsBlock.exists_body {cs : List Char} (h : EndsBlock cs) :
    ∃ body, cs = body ++ Block.tripleQuote := by
  induction h with
  | close => exact ⟨[], rfl⟩
  | escaped h ih =>
    obtain ⟨body, rfl⟩ := ih
    exact ⟨_, (List.append_assoc _ _ _).symm⟩
  | @char c cs hclose hescaped h ih =>
    obtain ⟨body, rfl⟩ := ih
    exact ⟨c :: body, rfl⟩

theorem trimEnds_eq (front body back : List Char) {n : Nat} (hfront : byteCount front = n)
    (hback : byteCount back = n) : trimEnds n (front ++ (body ++ back)) = .ok body := by
  have hcount : byteCount (front ++ (body ++ back)) = n + byteCount body + n := by
    rw [byteCount_append, byteCount_append, hfront, hback, Nat.add_assoc]
  rw [trimEnds, sub_of_le (by omega), ok_bind, slice_eq_ok_iff]
  refine ⟨front, back, by rw [List.append_assoc], hfront, ?_⟩
  rw [byteCount_append, hfront]
  omega

/-- The string tokens of a source have values, which are found without a guard failing. -/
theorem Token.IsCut.guardedString {t : Token} (ht : t.IsCut) (hk : t.kind.isString = true) :
    ∃ s, t.guardedString = .ok s ∧ t.stringValue? = some s := by
  have herror : t.kind ≠ .error := by
    intro h
    rw [h] at hk
    cases hk
  obtain ⟨c, cs, hkind, htext⟩ := ht
  rw [hkind] at herror
  have hmem := Lexeme.text_scan_mem_language herror
  rw [← hkind, ← String.toList_ofList (l := (Lexeme.scan c cs).text), ← htext] at hmem
  cases hstring : t.kind with
  | string =>
    rw [hstring] at hmem
    obtain ⟨ds, -, hds⟩ := Lexicon.mem_quoted.mp hmem
    have htrim : trimEnds 1 t.text.toList = .ok ds := by
      rw [hds]
      exact trimEnds_eq ['"'] ds ['"'] rfl rfl
    refine ⟨.ofList (Quoted.decode ds), ?_, ?_⟩
    · rw [Token.guardedString, hstring]
      dsimp only
      rw [htrim]
      rfl
    · rw [Token.stringValue?, hstring, hds]
      simp [Quoted.read]
  | blockString =>
    rw [hstring] at hmem
    obtain ⟨es, hes, htoken⟩ := hmem
    obtain ⟨body, rfl⟩ := hes.exists_body
    have htrim : trimEnds 3 t.text.toList = .ok body := by
      rw [htoken]
      exact trimEnds_eq Block.tripleQuote body Block.tripleQuote (by decide) (by decide)
    refine ⟨.ofList (Block.decode body), ?_, ?_⟩
    · rw [Token.guardedString, hstring]
      dsimp only
      rw [htrim, ok_bind, Block.guardedDecode_eq]
      rfl
    · rw [Token.stringValue?, hstring, htoken]
      simp [Block.read, Block.tripleQuote]
  | eof | error | ident | int | float | keyword | mark =>
    rw [hstring] at hk
    cases hk

/-! ### Statements -/

/-- The kind of statement that begins with a token that may begin one. -/
def TokenKind.guardedStatement (k : TokenKind) : Guarded StatementKind :=
  match k.statement? with
  | some s => return s
  | none => throw .unreachable

def guardedDescription : List Token → Guarded (Option String × List Token)
  | [] => return (none, [])
  | t :: ts =>
    if t.kind.isString then do return (some (← t.guardedString), ts) else return (none, t :: ts)

/-- The values of the strings among some tokens. -/
def guardedStrings (ts : List Token) : Guarded (List String) :=
  (ts.filter (·.kind.isString)).mapM Token.guardedString

/-- Counts the braces of a token. -/
def countBrace (depth : Nat) (t : Token) : Guarded Nat :=
  match t.kind with
  | .mark .lbrace => add depth 1
  | .mark .rbrace => return depth - 1
  | _ => return depth

theorem TokenKind.guardedStatement_eq {k : TokenKind} {s : StatementKind}
    (h : k.statement? = some s) : k.guardedStatement = .ok s := by
  rw [guardedStatement, h]
  rfl

section Tokens

variable {t : Token} {ts rest : List Token}

theorem guardedDescription_eq (hcut : ∀ t ∈ ts, t.IsCut) :
    guardedDescription ts = .ok (splitDescription ts) := by
  cases ts with
  | nil => rfl
  | cons t ts =>
    rw [guardedDescription, splitDescription]
    by_cases hk : t.kind.isString = true
    · obtain ⟨s, hs, hvalue⟩ := (hcut t List.mem_cons_self).guardedString hk
      rw [if_pos hk, hs, hvalue]
      rfl
    · have hvalue : t.stringValue? = none := by
        obtain ⟨kind, text, location⟩ := t
        cases kind <;> first | rfl | exact absurd rfl hk
      rw [if_neg hk, hvalue]
      rfl

theorem exists_guardedStrings (hcut : ∀ t ∈ ts, t.IsCut) :
    ∃ values, guardedStrings ts = .ok values := by
  induction ts with
  | nil => exact ⟨[], rfl⟩
  | cons t ts ih =>
    obtain ⟨ht, hts⟩ := List.forall_mem_cons.mp hcut
    obtain ⟨values, hvalues⟩ := ih hts
    by_cases hk : t.kind.isString = true
    · obtain ⟨s, hs, -⟩ := ht.guardedString hk
      refine ⟨s :: values, ?_⟩
      rw [guardedStrings, List.filter_cons, if_pos hk, List.mapM_cons, hs, ok_bind]
      change guardedStrings ts >>= _ = _
      rw [hvalues]
      rfl
    · exact ⟨values, by rwa [guardedStrings, List.filter_cons, if_neg hk]⟩

theorem openBraces_one_le (depth : Nat) (t : Token) : openBraces depth [t] ≤ depth + 1 := by
  rw [openBraces, List.foldl_cons, List.foldl_nil]
  split <;> omega

theorem countBrace_eq {depth : Nat} (h : depth + 1 < Span.wordCount) :
    countBrace depth t = .ok (openBraces depth [t]) := by
  obtain ⟨kind, text, location⟩ := t
  rw [countBrace, openBraces, List.foldl_cons, List.foldl_nil]
  cases kind with
  | mark m =>
    cases m with
    | lbrace => exact add_of_lt h
    | _ => rfl
  | _ => rfl

/-- Braces are counted in a word, if the tokens are. -/
theorem countBraces_eq (depth : Nat) (ts : List Token) (h : depth + ts.length < Span.wordCount) :
    ts.foldlM countBrace depth = .ok (openBraces depth ts) ∧
      openBraces depth ts ≤ depth + ts.length := by
  induction ts generalizing depth with
  | nil => exact ⟨rfl, Nat.le_refl _⟩
  | cons t ts ih =>
    have hone := openBraces_one_le depth t
    rw [List.length_cons] at h
    obtain ⟨hcount, hle⟩ := ih (openBraces depth [t]) (by omega)
    rw [List.foldlM_cons, countBrace_eq (by omega), ok_bind, hcount, List.length_cons]
    exact ⟨rfl, hle.trans (by omega)⟩

end Tokens

namespace Progress

/-- The tokens in front of `rest` taken, and the braces among them counted in a word. -/
def guardedTake (s : Progress) (rest : List Token) : Guarded Progress := do
  let taken := s.rest.take (s.rest.length - rest.length)
  return { s with rest, depth := ← taken.foldlM countBrace s.depth }

theorem guardedTake_eq {s : Progress} {rest : List Token} (hrest : rest <:+ s.rest)
    (hdepth : s.depth + s.rest.length < Span.wordCount) :
    s.guardedTake rest = .ok (s.take rest) ∧
      (s.take rest).depth + rest.length ≤ s.depth + s.rest.length := by
  have hlen := hrest.length_le
  have htaken : (s.rest.take (s.rest.length - rest.length)).length + rest.length =
      s.rest.length := by
    rw [List.length_take]
    omega
  obtain ⟨hcount, hle⟩ := countBraces_eq s.depth (s.rest.take (s.rest.length - rest.length))
    (by omega)
  rw [guardedTake, hcount, take]
  exact ⟨rfl, by dsimp only; omega⟩

/-- A pass that stops the loop. -/
def stopped (stop : Token) (s : Progress) : Progress :=
  { s.report [⟨.notAStatement (Reader.describeNext s.rest), nextLocation stop s.rest⟩] with
    aborted := true }

/-- One pass of the loop. Whatever strings a statement takes, their values are found. -/
def guardedPass (stop : Token) (s : Progress) : Guarded Progress := do
  let (description, ts) ← guardedDescription s.rest
  let begun ← s.guardedTake ts
  match ts with
  | [] => return begun.stopped stop
  | t :: rest =>
    if t.kind.startsStatement then
      let outcome := (Reader.definition description (← t.kind.guardedStatement)).run rest
      let _ ← guardedStrings (rest.take (rest.length - outcome.rest.length))
      let behind ← begun.guardedTake outcome.rest
      match outcome with
      | .done v found _ => return { behind.report found with document := s.document.define v }
      | .stuck fault found rest' =>
        (behind.report (stuckDiagnostics stop fault found rest')).guardedTake
          (skipStatement behind.depth rest')
    else return begun.stopped stop

/-- No guard of a pass fails. -/
theorem guardedPass_eq (stop : Token) {s : Progress} (hcut : ∀ t ∈ s.rest, t.IsCut)
    (hdepth : s.depth + s.rest.length < Span.wordCount) :
    s.guardedPass stop = .ok (s.pass stop) := by
  have hsuffix := splitDescription_suffix s.rest
  obtain ⟨hbegun, hdepth'⟩ := guardedTake_eq hsuffix hdepth
  rw [guardedPass, guardedDescription_eq hcut, ok_bind, pass, statement?]
  generalize splitDescription s.rest = split at *
  obtain ⟨description, ts⟩ := split
  dsimp only at *
  rw [hbegun, ok_bind]
  cases ts with
  | nil => rfl
  | cons t rest =>
    dsimp only
    cases hk : t.kind.statement? with
    | none =>
      have hstarts : ¬ t.kind.startsStatement = true := by simp [TokenKind.startsStatement, hk]
      rw [if_neg hstarts]
      rfl
    | some kind =>
      have hstarts : t.kind.startsStatement = true := by simp [TokenKind.startsStatement, hk]
      rw [if_pos hstarts, TokenKind.guardedStatement_eq hk, ok_bind, Option.map_some]
      have hrest := (Reader.definition description kind).rest_run_suffix rest
      generalize (Reader.definition description kind).run rest = outcome at *
      have htaken : ∀ u ∈ rest.take (rest.length - outcome.rest.length), u.IsCut := fun u hu =>
        hcut u (hsuffix.subset (List.mem_cons_of_mem t (List.mem_of_mem_take hu)))
      obtain ⟨values, hvalues⟩ := exists_guardedStrings htaken
      obtain ⟨hbehind, hdepth''⟩ := guardedTake_eq (s := s.take (t :: rest))
        (hrest.trans (List.suffix_cons t rest)) (hdepth'.trans_lt hdepth)
      rw [hvalues, ok_bind, hbehind, ok_bind]
      cases outcome with
      | done v found rest' => rfl
      | stuck fault found rest' =>
        have hfits := (hdepth''.trans hdepth').trans_lt hdepth
        exact (guardedTake_eq (s := ((s.take (t :: rest)).take rest').report _)
          (skipStatement_suffix _ rest') hfits).1

/-- What the loop has left to do. -/
def size (s : Progress) : Nat := if s.aborted then 0 else s.rest.length + 1

def guardedStep (stop : Token) (s : Progress) : Guarded (Progress ⊕ Progress) :=
  if s.rest = [] ∨ s.aborted then return .inl s else do return .inr (← s.guardedPass stop)

theorem rest_pass_suffix (stop : Token) {s : Progress} (hzero : s.depth = 0) :
    (s.pass stop).rest <:+ s.rest := by
  cases ho : s.statement? with
  | none =>
    rw [pass_of_none stop ho]
    exact splitDescription_suffix s.rest
  | some o =>
    obtain ⟨t, rest, hts, -, hrest⟩ := rest_pass stop ho hzero
    exact hrest.trans ((List.suffix_cons t rest).trans hts)

/-- The loop makes the passes of a run. -/
theorem Runs.loop_eq {stop : Token} {s e : Progress} {ss : List Progress} (h : Runs stop s ss e)
    (hs : s.Ready) (hcut : ∀ t ∈ s.rest, t.IsCut) (hlen : s.rest.length < Span.wordCount) :
    loop size (guardedStep stop) s = .ok e := by
  induction h with
  | ended hnil => exact loop_of_stop (if_pos (.inl hnil))
  | aborted ha => exact loop_of_stop (if_pos (.inr ha))
  | @next s e ss hrest ha hrun ih =>
    have hzero := hs.resolve_left hrest
    have hpass := guardedPass_eq stop hcut (by omega)
    have hsuffix := rest_pass_suffix stop hzero
    have hnext : guardedStep stop s = .ok (.inr (s.pass stop)) := by
      rw [guardedStep, if_neg (by simp [hrest, ha]), hpass]
      rfl
    have hlt : (s.pass stop).size < s.size := by
      have hle := hsuffix.length_le
      rw [size, size, ha, if_neg Bool.false_ne_true]
      rcases length_pass_lt stop hzero with hlt | haborted
      · split <;> omega
      · rw [if_pos haborted]
        omega
    rw [loop_of_next hnext hlt]
    exact ih (ready_pass stop hzero) (fun t ht => hcut t (hsuffix.subset ht))
      (hsuffix.length_le.trans_lt hlen)

end Progress

/-- Reads a text into a document of the given name. -/
def guardedParse (source name : String) : Guarded Parsed := do
  let ts ← Scanner.tokens source.toList
  let e ← loop Progress.size (Progress.guardedStep ts.stop) (.start ts.words name)
  return ⟨e.document, e.diagnostics, e.aborted⟩

/-- No guard fails on the way from a source to its document. -/
theorem guardedParse_eq {source : String} (hsize : Scanner.Fits source.toList) (name : String) :
    guardedParse source name = .ok (parse source name) := by
  have hready : (Progress.start (Tokens.ofString source).words name).Ready := .inr rfl
  have hlen : (Tokens.ofString source).words.length < Span.wordCount := by
    have hword : Span.wordCount = 2 ^ 32 := rfl
    have htiles := (Tokens.tiles_ofCursor .start source.toList).length_le
    have hbytes := Scanner.length_le_byteCount source.toList
    rw [Scanner.Fits] at hsize
    rw [Tokens.ofString, Cursor.ofString]
    omega
  obtain ⟨ss, e, hrun⟩ := Progress.exists_runs (Tokens.ofString source).stop _ hready
  obtain ⟨hdocument, hdiagnostics, haborted⟩ := hrun.eq_items hready rfl
  rw [guardedParse, Scanner.tokens_eq hsize, String.ofList_toList, ok_bind,
    hrun.loop_eq hready (Tokens.isCut_words _) hlen, ok_bind, hdocument, hdiagnostics, haborted]
  rfl

end SchemaLang
