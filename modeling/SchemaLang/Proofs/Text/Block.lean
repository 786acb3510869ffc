import SchemaLang.Lexeme
import SchemaLang.Proofs.Text.Quoted
import SchemaLang.Text.Block

/-! Strings between triple quotes. What is written between them is one lexeme, whatever the value,
since every triple quote in it is escaped, and the escapes are undone when it is read. -/

namespace SchemaLang

namespace Block

/-! ### Escaped triple quotes -/

/-- A quote at the front of an escaped line is a quote of the line. -/
theorem cons_of_escapeQuotes {cs rest ds : List Char}
    (h : escapeQuotes cs ++ '\n' :: rest = '"' :: ds) :
    ∃ es, cs = '"' :: es ∧ (¬ ∃ fs, es = '"' :: '"' :: fs) ∧
      escapeQuotes es ++ '\n' :: rest = ds := by
  unfold escapeQuotes at h
  split at h
  next => simp at h
  next c cs hne =>
    obtain ⟨rfl, hds⟩ := List.cons.inj h
    exact ⟨cs, rfl, fun ⟨fs, hfs⟩ => hne fs rfl hfs, hds⟩
  next => simp at h

theorem two_quotes_of_escapeQuotes {cs rest ds : List Char}
    (h : escapeQuotes cs ++ '\n' :: rest = '"' :: '"' :: ds) : ∃ es, cs = '"' :: '"' :: es := by
  obtain ⟨es, rfl, -, h⟩ := cons_of_escapeQuotes h
  obtain ⟨fs, rfl, -, -⟩ := cons_of_escapeQuotes h
  exact ⟨fs, rfl⟩

theorem escapeQuotes_ne_tripleQuote {cs rest ds : List Char} :
    escapeQuotes cs ++ '\n' :: rest ≠ '"' :: '"' :: '"' :: ds := by
  intro h
  obtain ⟨es, rfl, hne, h⟩ := cons_of_escapeQuotes h
  exact hne (two_quotes_of_escapeQuotes h)

theorem unescapeQuotes_cons {c : Char} {cs : List Char}
    (h : ∀ ds, cs ≠ '"' :: '"' :: '"' :: ds) :
    unescapeQuotes (c :: cs) = c :: unescapeQuotes cs := by
  rw [unescapeQuotes]
  exact fun ds _ heq => h ds heq

theorem unescapeQuotes_escapeQuotes (l rest : List Char) :
    unescapeQuotes (escapeQuotes l ++ '\n' :: rest) = l ++ '\n' :: unescapeQuotes rest := by
  induction l using escapeQuotes.induct with
  | case1 cs ih =>
    simp only [escapeQuotes, List.cons_append]
    rw [unescapeQuotes, ih]
  | case2 c cs hne ih =>
    rw [escapeQuotes]
    · rw [List.cons_append, unescapeQuotes_cons fun ds => escapeQuotes_ne_tripleQuote, ih]
      rfl
    · exact hne
  | case3 =>
    rw [escapeQuotes, List.nil_append, unescapeQuotes]
    · rfl
    · intro cs h
      cases h

end Block

namespace Lexeme

open Block

theorem blockTail_cons {c : Char} {cs : List Char}
    (hq : ∀ ds, c = '"' → cs ≠ '"' :: '"' :: ds) (hb : ∀ ds, cs ≠ '"' :: '"' :: '"' :: ds) :
    blockTail (c :: cs) = (blockTail cs).prepend [c] := by
  rw [blockTail]
  · exact fun ds hc heq => hq ds hc heq
  · exact fun ds _ heq => hb ds heq

/-- A line of which the triple quotes are escaped does not close a block string. -/
theorem blockTail_escapeQuotes (l rest : List Char) :
    blockTail (escapeQuotes l ++ '\n' :: rest) =
      (blockTail rest).prepend (escapeQuotes l ++ ['\n']) := by
  induction l using escapeQuotes.induct with
  | case1 cs ih =>
    simp only [escapeQuotes, List.cons_append]
    rw [blockTail, ih, prepend_prepend]
    rfl
  | case2 c cs hne ih =>
    rw [escapeQuotes]
    · rw [List.cons_append, blockTail_cons, ih, prepend_prepend]
      · rfl
      · intro ds hc h
        obtain ⟨es, hes⟩ := two_quotes_of_escapeQuotes h
        exact hne es hc hes
      · exact fun ds => escapeQuotes_ne_tripleQuote
    · exact hne
  | case3 =>
    rw [escapeQuotes, List.nil_append, blockTail]
    · rfl
    · intro cs h
      cases h
    · intro cs h
      cases h

end Lexeme

/-! ### Whole bodies -/

namespace Block

/-- Spaces and tabs. -/
def IsIndent (indent : List Char) : Prop := ∀ c ∈ indent, c = ' ' ∨ c = '\t'

theorem isIndent_nil : IsIndent [] := by simp [IsIndent]

variable {indent : List Char}

theorem unescapeQuotes_indent (h : IsIndent indent) (rest : List Char) :
    unescapeQuotes (indent ++ rest) = indent ++ unescapeQuotes rest := by
  induction indent with
  | nil => rfl
  | cons c cs ih =>
    have hc : c ≠ '\\' := by
      rcases h c List.mem_cons_self with rfl | rfl <;> decide
    rw [List.cons_append, unescapeQuotes, ih fun d hd => h d (List.mem_cons_of_mem c hd)]
    · rfl
    · exact fun ds hcs _ => hc hcs

/-- A line as it stands in a body once its triple quotes are no longer escaped. -/
def indentLine (indent line : List Char) : List Char := if line = [] then [] else indent ++ line

theorem unescapeQuotes_encodeLine (h : IsIndent indent) (l rest : List Char) :
    unescapeQuotes (encodeLine indent l ++ rest) =
      indentLine indent l ++ '\n' :: unescapeQuotes rest := by
  unfold encodeLine indentLine
  split
  next => exact unescapeQuotes_escapeQuotes [] rest
  next =>
    rw [List.append_assoc, List.append_assoc, unescapeQuotes_indent h, List.singleton_append,
      unescapeQuotes_escapeQuotes, List.append_assoc]

theorem unescapeQuotes_lines (h : IsIndent indent) (ls : List (List Char)) (rest : List Char) :
    unescapeQuotes (ls.flatMap (encodeLine indent) ++ rest) =
      ls.flatMap (fun l => indentLine indent l ++ ['\n']) ++ unescapeQuotes rest := by
  induction ls with
  | nil => rfl
  | cons l ls ih =>
    rw [List.flatMap_cons, List.append_assoc, unescapeQuotes_encodeLine h, ih]
    simp

/-- The text between the triple quotes. -/
def body (indent value : List Char) : List Char :=
  '\n' :: (lines value).flatMap (encodeLine indent) ++ indent

theorem write_eq (indent value : List Char) :
    write indent value = tripleQuote ++ (body indent value ++ tripleQuote) := by
  simp [write, body]

theorem unescapeQuotes_body (h : IsIndent indent) (value : List Char) :
    unescapeQuotes (body indent value) =
      '\n' :: (lines value).flatMap (fun l => indentLine indent l ++ ['\n']) ++ indent := by
  have hn : ∀ cs, unescapeQuotes ('\n' :: cs) = '\n' :: unescapeQuotes cs := fun cs =>
    unescapeQuotes_escapeQuotes [] cs
  have hi : unescapeQuotes indent = indent := by
    simpa [unescapeQuotes] using unescapeQuotes_indent h []
  rw [body, List.cons_append, hn, unescapeQuotes_lines h, hi, List.cons_append]

theorem read_write_eq (indent value : List Char) :
    read (write indent value) = decode (body indent value) := by
  have hlen : (write indent value).length - 6 = (body indent value).length := by
    rw [write_eq]
    simp only [List.length_append, tripleQuote, List.length_cons, List.length_nil]
    omega
  rw [read, hlen, write_eq]
  simp [tripleQuote]

end Block

namespace Lexeme

open Block

theorem blockTail_indent {indent : List Char} (h : IsIndent indent) (rest : List Char) :
    blockTail (indent ++ rest) = (blockTail rest).prepend indent := by
  induction indent with
  | nil => rfl
  | cons c cs ih =>
    have hc : c ≠ '\\' ∧ c ≠ '"' := by
      rcases h c List.mem_cons_self with rfl | rfl <;> decide
    rw [List.cons_append, blockTail, ih fun d hd => h d (List.mem_cons_of_mem c hd),
      prepend_prepend]
    · rfl
    · exact fun ds hcs _ => hc.2 hcs
    · exact fun ds hcs _ => hc.1 hcs

theorem blockTail_encodeLine {indent : List Char} (h : IsIndent indent) (l rest : List Char) :
    blockTail (encodeLine indent l ++ rest) = (blockTail rest).prepend (encodeLine indent l) := by
  unfold encodeLine
  split
  next => exact blockTail_escapeQuotes [] rest
  next =>
    rw [List.append_assoc, List.append_assoc, blockTail_indent h, List.singleton_append,
      blockTail_escapeQuotes, prepend_prepend, List.append_assoc]

theorem blockTail_lines {indent : List Char} (h : IsIndent indent) (ls : List (List Char))
    (rest : List Char) :
    blockTail (ls.flatMap (encodeLine indent) ++ rest) =
      (blockTail rest).prepend (ls.flatMap (encodeLine indent)) := by
  induction ls with
  | nil => rfl
  | cons l ls ih =>
    rw [List.flatMap_cons, List.append_assoc, blockTail_encodeLine h, ih, prepend_prepend]

/-- A block string is one lexeme, whatever comes behind it. -/
theorem scan_block {indent : List Char} (h : IsIndent indent) (value rest : List Char) :
    scan '"' ('"' :: '"' :: (body indent value ++ (tripleQuote ++ rest))) =
      ⟨.blockString, write indent value, rest⟩ := by
  have hclose : blockTail (tripleQuote ++ rest) = ⟨.blockString, tripleQuote, rest⟩ := by
    rw [tripleQuote, List.cons_append, List.cons_append, List.cons_append, blockTail]
    rfl
  have hn : ∀ cs, blockTail ('\n' :: cs) = (blockTail cs).prepend ['\n'] := fun cs =>
    blockTail_escapeQuotes [] cs
  have hm : Mark.ofChar? '"' = none := by decide
  have hs : string ('"' :: '"' :: (body indent value ++ (tripleQuote ++ rest))) =
      ⟨.blockString, write indent value, rest⟩ := by
    rw [string, body, List.append_assoc, List.cons_append, hn, blockTail_lines h,
      blockTail_indent h, hclose]
    simp [prepend, write, tripleQuote]
  unfold scan
  rw [hm]
  exact hs

end Lexeme

end SchemaLang
