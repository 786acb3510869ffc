import SchemaLang.Proofs.Text.Language

/-! Where a string in quotes ends. It is closed by the first quote, and breaks off at the first line
feed, that no backslash takes with it; so a string in quotes can have a line feed in it, but only
right behind a backslash. -/

namespace SchemaLang

open scoped Computability

/-! ### The inside of a string -/

namespace Lexicon

/-- Inside of a string a line feed stands right behind a backslash. -/
theorem isChain_quotedChars {cs : List Char} (h : cs ∈ quotedChar∗) (a : Char) :
    (a :: (cs ++ ['"'])).IsChain fun c d => d = '\n' → c = '\\' := by
  rw [Language.mem_kstar] at h
  obtain ⟨ws, rfl, hws⟩ := h
  induction ws generalizing a with
  | nil => exact List.isChain_pair.mpr nofun
  | cons w ws ih =>
    have htail (c : Char) := ih c fun v hv => hws v (List.mem_cons_of_mem w hv)
    rw [List.flatten_cons, List.append_assoc]
    obtain ⟨c, hc, rfl⟩ | ⟨c, rfl⟩ := mem_quotedChar.mp (hws w List.mem_cons_self)
    · exact List.isChain_cons_cons.mpr ⟨fun h => absurd h hc.2.1, htail c⟩
    · exact List.isChain_cons_cons.mpr ⟨nofun, List.isChain_cons_cons.mpr ⟨fun _ => rfl, htail c⟩⟩

/-- In a string a line feed stands right behind a backslash. -/
theorem suffix_of_mem_quoted {cs front back : List Char} (h : cs ∈ quoted)
    (heq : cs = front ++ '\n' :: back) : ['\\'] <:+ front := by
  obtain ⟨ds, hds, rfl⟩ := mem_quoted.mp h
  have hchain := isChain_quotedChars hds '"'
  rcases List.eq_nil_or_concat' front with rfl | ⟨init, c, rfl⟩
  · cases heq
  · rw [heq, List.append_assoc, List.isChain_append] at hchain
    obtain rfl : c = '\\' := (List.isChain_cons_cons.mp hchain.2.1).1 rfl
    exact List.suffix_append init ['\\']

end Lexicon

namespace Lexeme

open Lexicon

/-- A string in quotes and the first line feed behind its opening quote: the string is closed before
it, or it breaks off there, or a backslash takes the line feed and the string goes on. -/
theorem scan_quote_line {line : List Char} (hline : '\n' ∉ line) (hquotes : ¬ ['"', '"'] <+: line)
    (back : List Char) :
    let l := scan '"' (line ++ '\n' :: back)
    (∃ ds ∈ quotedChar∗, ds ++ ['"'] <+: line ∧ l.kind = .string ∧ l.text = '"' :: (ds ++ ['"'])) ∨
    (line ∈ quotedChar∗ ∧ l.kind = .error ∧ l.text = '"' :: line) ∨
    ∃ ds ∈ quotedChar∗, line = ds ++ ['\\'] ∧ '"' :: (line ++ ['\n']) <+: l.text := by
  have hne : ∀ es, line ++ '\n' :: back ≠ '"' :: '"' :: es := by
    intro es heq
    rcases line with _ | ⟨c, _ | ⟨d, cs⟩⟩
    · simp at heq
    · simp at heq
    · obtain ⟨rfl, rfl, -⟩ : c = '"' ∧ d = '"' ∧ cs ++ '\n' :: back = es := by simpa using heq
      exact hquotes ⟨cs, rfl⟩
  have hscan : scan '"' (line ++ '\n' :: back) =
      (quotedTail (line ++ '\n' :: back)).prepend ['"'] := string_of_ne hne
  rw [hscan]
  obtain ⟨ds, hds, rest, rfl, rfl | rfl | ⟨es, rfl⟩ | ⟨es, rfl⟩⟩ := exists_quotedChars line
  · refine .inr (.inl ⟨by rwa [List.append_nil], ?_⟩)
    rw [List.append_assoc, quotedTail_append_of_mem hds]
    exact ⟨rfl, rfl⟩
  · have htail : quotedTail (ds ++ ['\\'] ++ '\n' :: back) =
        ((quotedTail back).prepend ['\\', '\n']).prepend ds := by
      rw [List.append_assoc, quotedTail_append_of_mem hds, List.singleton_append,
        quotedTail_escape]
    refine .inr (.inr ⟨ds, hds, rfl, (quotedTail back).text, ?_⟩)
    rw [htail]
    simp [prepend]
  · refine .inl ⟨ds, hds, ⟨es, by simp⟩, ?_⟩
    rw [List.append_assoc, List.cons_append, quotedTail_of_mem hds]
    exact ⟨rfl, rfl⟩
  · exact absurd (List.mem_append_right ds List.mem_cons_self) hline

end Lexeme

/-! ### The tokens of a source -/

theorem eq_nil_of_byteCount {cs : List Char} (h : byteCount cs = 0) : cs = [] := by
  cases cs with
  | nil => rfl
  | cons c cs =>
    have hpos := c.utf8Size_pos
    rw [byteCount, List.map_cons, List.sum_cons] at h
    omega

/-- A place in a text is known by the bytes before it. -/
theorem eq_of_byteCount {us vs xs ys : List Char} (h : us ++ xs = vs ++ ys)
    (hbytes : byteCount us = byteCount vs) : us = vs := by
  obtain ⟨ws, rfl, -⟩ | ⟨ws, rfl, -⟩ := List.append_eq_append_iff.mp h
  · rw [byteCount_append] at hbytes
    have hnil : ws = [] := eq_nil_of_byteCount (by omega)
    rw [hnil, List.append_nil]
  · rw [byteCount_append] at hbytes
    have hnil : ws = [] := eq_nil_of_byteCount (by omega)
    rw [hnil, List.append_nil]

namespace Tokens

theorem exists_scan_of_mem {p : Place} {cs : List Char} {t : Token}
    (h : t ∈ (ofCursor ⟨p, cs⟩).words) : ∃ us a as q, cs = us ++ a :: as ∧ Passes p us q ∧
      t = ⟨(Lexeme.scan a as).kind, .ofList (Lexeme.scan a as).text,
        q.locate (Lexeme.scan a as).text⟩ := by
  induction p, cs using ofCursor_induction with
  | ended p us q hus hle hskip =>
    rw [ofCursor_of_skipTrivia_nil hskip] at h
    cases h
  | token p us q a as hus hle hskip ih =>
    rw [ofCursor_of_skipTrivia hskip] at h
    rcases List.mem_cons.mp h with rfl | h
    · exact ⟨us, a, as, q, rfl, hus, rfl⟩
    · obtain ⟨vs, b, bs, r, hrest, hvs, ht⟩ := ih h
      refine ⟨us ++ ((Lexeme.scan a as).text ++ vs), b, bs, r, ?_, ?_, ht⟩
      · rw [List.append_assoc, List.append_assoc, ← hrest, Lexeme.scan_append]
      · exact hus.append ((Passes.pastAll q _).append hvs)

/-- The token that begins behind `front` is the lexeme that begins there. -/
theorem eq_of_mem_of_start {source : String} {t : Token} {front cs : List Char} {c : Char}
    (h : t ∈ (ofString source).words) (hsource : source.toList = front ++ c :: cs)
    (hstart : t.location.span.start = byteCount front) :
    t.kind = (Lexeme.scan c cs).kind ∧ t.text.toList = (Lexeme.scan c cs).text ∧
      t.location.span.stop = byteCount (front ++ (Lexeme.scan c cs).text) := by
  obtain ⟨us, a, as, q, hcs, ⟨hbytes, -⟩, rfl⟩ := exists_scan_of_mem h
  obtain ⟨hstop, -⟩ := Passes.pastAll q (Lexeme.scan a as).text
  have hoffset : q.offset = byteCount us := hbytes.trans (Nat.zero_add _)
  have hsame : us ++ a :: as = front ++ c :: cs := hcs.symm.trans hsource
  obtain rfl : us = front := eq_of_byteCount hsame (hoffset.symm.trans hstart)
  obtain ⟨rfl, rfl⟩ := List.cons.inj (List.append_cancel_left hsame)
  refine ⟨rfl, String.toList_ofList, ?_⟩
  rw [Place.locate, hstop, hoffset, byteCount_append]

/-- Strings in quotes and line feeds. In the text of a string in quotes a line feed stands right
behind a backslash. A token that begins with a quote, and with no triple quote, is a string that is
closed before the next line feed, or an error that ends at that line feed if the string is not
closed before, unless a backslash stands there to take the line feed, behind which the token goes
on then. -/
theorem quoted_ofString (source : String) :
    (∀ t ∈ (ofString source).words, t.kind = .string →
      ∀ front back, t.text.toList = front ++ '\n' :: back → ['\\'] <:+ front) ∧
    ∀ t ∈ (ofString source).words, ∀ front line back : List Char,
      source.toList = front ++ '"' :: (line ++ '\n' :: back) →
      t.location.span.start = byteCount front → '\n' ∉ line → ¬ ['"', '"'] <+: line →
      (∃ ds ∈ Lexicon.quotedChar∗, ds ++ ['"'] <+: line ∧ t.kind = .string ∧
        t.text.toList = '"' :: (ds ++ ['"'])) ∨
      (line ∈ Lexicon.quotedChar∗ ∧ t.kind = .error ∧ t.text.toList = '"' :: line ∧
        t.location.span.stop = byteCount (front ++ '"' :: line)) ∨
      ∃ ds ∈ Lexicon.quotedChar∗, line = ds ++ ['\\'] ∧
        '"' :: (line ++ ['\n']) <+: t.text.toList := by
  refine ⟨fun t ht hkind front back htext => ?_,
    fun t ht front line back hsource hstart hline hquotes => ?_⟩
  · obtain ⟨us, a, as, q, -, -, rfl⟩ := exists_scan_of_mem ht
    have hscan : (Lexeme.scan a as).kind = .string := hkind
    have herror : (Lexeme.scan a as).kind ≠ .error := by rw [hscan]; nofun
    have hmem := Lexeme.text_scan_mem_language herror
    rw [hscan] at hmem
    exact Lexicon.suffix_of_mem_quoted hmem (String.toList_ofList.symm.trans htext)
  · obtain ⟨hkind, htext, hstop⟩ := eq_of_mem_of_start ht hsource hstart
    rw [hkind, htext, hstop]
    obtain h | ⟨hmem, herror, h⟩ | h := Lexeme.scan_quote_line hline hquotes back
    · exact .inl h
    · exact .inr (.inl ⟨hmem, herror, h, by rw [h]⟩)
    · exact .inr (.inr h)

/-- A string that a backslash takes over a line feed, and one that breaks off at a line feed. -/
theorem quoted_ofString_feeds :
    let source := "\"a\\\nb\"\"c\n"
    let t : Token := ⟨.string, "\"a\\\nb\"", ⟨.start, ⟨0, 6⟩⟩⟩
    let u : Token := ⟨.error, "\"c", ⟨⟨2, 3⟩, ⟨6, 8⟩⟩⟩
    (ofString source).words = [t, u] ∧
      (t.text.toList = ['"', 'a', '\\'] ++ '\n' :: ['b', '"'] ∧ ['\\'] <:+ ['"', 'a', '\\']) ∧
      (source.toList = t.text.toList ++ '"' :: (['c'] ++ '\n' :: []) ∧
        u.location.span.start = byteCount t.text.toList ∧ ¬ ['"', '"'] <+: ['c'] ∧
        u.location.span.stop = byteCount (t.text.toList ++ '"' :: ['c'])) := by
  intro source t u
  obtain ⟨hfeeds, hlines⟩ := quoted_ofString source
  have hwords : (ofString source).words = [t, u] := by decide +kernel
  have htext : t.text.toList = ['"', 'a', '\\'] ++ '\n' :: ['b', '"'] := by decide +kernel
  have hsource : source.toList = t.text.toList ++ '"' :: (['c'] ++ '\n' :: []) := by decide +kernel
  have hstart : u.location.span.start = byteCount t.text.toList := by decide +kernel
  have ht := hfeeds t (by rw [hwords]; decide) rfl _ _ htext
  refine ⟨hwords, ⟨htext, ht⟩, hsource, hstart, by decide, ?_⟩
  obtain ⟨ds, -, hfront, -⟩ | ⟨-, -, -, hstop⟩ | ⟨ds, -, hline, -⟩ :=
    hlines u (by rw [hwords]; decide) _ ['c'] [] hsource hstart (by decide) (by decide)
  · exact absurd (hfront.subset (List.mem_append_right ds List.mem_cons_self)) (by decide)
  · exact hstop
  · exact absurd (hline ▸ List.mem_append_right ds List.mem_cons_self : '\\' ∈ ['c']) (by decide)

end Tokens

end SchemaLang
