import SchemaLang.Proofs.Text.Reflow

/-! Where the lines of the value of a block string come from. Indentation before all lines but the
first does not count. The value goes from the first line that is not blank to the last one, each
line of it is the end of a line of the text, and lines that stand further in than others still do
so, by as much as before. -/

namespace SchemaLang

theorem splitFeeds_prepend {l : List Char} (h : '\n' ∉ l) (cs : List Char) :
    splitFeeds (l ++ cs) = (splitFeeds cs).modifyHead (l ++ ·) := by
  induction l with
  | nil => exact (congrFun List.modifyHead_id (splitFeeds cs)).symm
  | cons c l ih =>
    have hc : c ≠ '\n' := fun hc => h (hc ▸ List.mem_cons_self)
    rw [List.cons_append, splitFeeds, if_neg hc, ih fun hm => h (List.mem_cons_of_mem c hm),
      List.modifyHead_modifyHead]
    rfl

namespace Block

variable {indent cs : List Char} {ls : List (List Char)}

/-! ### Indentation before all lines but the first -/

/-- The text with `indent` behind every line feed, that is at the front of every line but the
first. -/
def inset (indent cs : List Char) : List Char :=
  cs.flatMap fun c => if c = '\n' then '\n' :: indent else [c]

theorem inset_feed (indent cs : List Char) :
    inset indent ('\n' :: cs) = '\n' :: (indent ++ inset indent cs) := rfl

theorem inset_cons {c : Char} (hc : c ≠ '\n') (indent cs : List Char) :
    inset indent (c :: cs) = c :: inset indent cs := by
  rw [inset, List.flatMap_cons, if_neg hc]
  rfl

/-- A character that is no line feed stands at the front only if it did so before. -/
theorem exists_cons_of_inset {c : Char} {ds : List Char} (hc : c ≠ '\n')
    (h : inset indent cs = c :: ds) : ∃ es, cs = c :: es ∧ inset indent es = ds := by
  cases cs with
  | nil => cases h
  | cons d es =>
    by_cases hd : d = '\n'
    · subst hd
      rw [inset_feed] at h
      exact absurd (List.cons.inj h).1.symm hc
    · rw [inset_cons hd] at h
      obtain ⟨rfl, hes⟩ := List.cons.inj h
      exact ⟨es, rfl, hes⟩

theorem exists_tripleQuote_of_inset {ds : List Char}
    (h : inset indent cs = '"' :: '"' :: '"' :: ds) : ∃ es, cs = '"' :: '"' :: '"' :: es := by
  obtain ⟨as, rfl, has⟩ := exists_cons_of_inset (by decide) h
  obtain ⟨bs, rfl, hbs⟩ := exists_cons_of_inset (by decide) has
  obtain ⟨es, rfl, -⟩ := exists_cons_of_inset (by decide) hbs
  exact ⟨es, rfl⟩

theorem unescapeQuotes_inset (hi : IsIndent indent) (cs : List Char) :
    unescapeQuotes (inset indent cs) = inset indent (unescapeQuotes cs) := by
  induction cs using unescapeQuotes.induct with
  | case1 cs ih =>
    have hquotes : inset indent ('\\' :: '"' :: '"' :: '"' :: cs) =
        '\\' :: '"' :: '"' :: '"' :: inset indent cs := rfl
    rw [hquotes, unescapeQuotes, ih, unescapeQuotes]
    rfl
  | case2 c cs hne ih =>
    by_cases hc : c = '\n'
    · subst hc
      have hfeed : ∀ ds, unescapeQuotes ('\n' :: ds) = '\n' :: unescapeQuotes ds := fun ds =>
        unescapeQuotes_escapeQuotes [] ds
      rw [inset_feed, hfeed, unescapeQuotes_indent hi, ih, hfeed, inset_feed]
    · rw [inset_cons hc, unescapeQuotes, ih, unescapeQuotes, inset_cons hc]
      · exact hne
      · intro ds hback heq
        obtain ⟨es, hes⟩ := exists_tripleQuote_of_inset heq
        exact hne es hback hes
  | case3 => rfl

theorem splitFeeds_inset (hi : IsIndent indent) {l : List Char} (h : splitFeeds cs = l :: ls) :
    splitFeeds (inset indent cs) = l :: ls.map (indent ++ ·) := by
  induction cs generalizing l ls with
  | nil =>
    obtain ⟨rfl, rfl⟩ := List.cons.inj h
    rfl
  | cons c cs ih =>
    obtain ⟨m, ms, hms⟩ := List.exists_cons_of_ne_nil (splitFeeds_ne_nil cs)
    by_cases hc : c = '\n'
    · subst hc
      rw [splitFeeds, if_pos rfl, hms] at h
      obtain ⟨rfl, rfl⟩ := List.cons.inj h
      rw [inset_feed, splitFeeds, if_pos rfl, splitFeeds_prepend (notMem_indent hi), ih hms]
      rfl
    · rw [splitFeeds, if_neg hc, hms] at h
      obtain ⟨rfl, rfl⟩ := List.cons.inj h
      rw [inset_cons hc, splitFeeds, if_neg hc, ih hms]
      rfl

theorem dropReturn_indent (hi : IsIndent indent) (l : List Char) :
    dropReturn (indent ++ l) = indent ++ dropReturn l := by
  by_cases hl : l = []
  · subst hl
    have hnil : dropReturn [] = [] := rfl
    rw [hnil, List.append_nil]
    refine dropReturn_of_ne fun hlast => ?_
    rcases hi _ (List.mem_of_getLast? hlast) with h | h <;> cases h
  · exact dropReturn_append indent hl

/-- The lines are the same, or those behind the first one have `indent` before them; where no line
began there may be a blank one then. -/
theorem lines_inset (hi : IsIndent indent) (cs : List Char) :
    lines (inset indent cs) = lines cs ∨ ∃ first others tail, (∀ l ∈ tail, isBlank l = true) ∧
      lines cs = first :: others ∧
      lines (inset indent cs) = first :: (others.map (indent ++ ·) ++ tail) := by
  obtain ⟨l, ls, hls⟩ := List.exists_cons_of_ne_nil (splitFeeds_ne_nil cs)
  have hinset := splitFeeds_inset hi hls
  rcases List.eq_nil_or_concat' ls with rfl | ⟨init, last, rfl⟩
  · left
    rw [lines, hinset, lines, hls]
    rfl
  · right
    have hlines : lines cs = dropReturn l ::
        (init.map dropReturn ++ ((some last).filter (· ≠ [])).toList) := by
      rw [lines, hls, ← List.cons_append, List.dropLast_concat, List.getLast?_concat]
      rfl
    have hlines' : lines (inset indent cs) = dropReturn l ::
        ((init.map dropReturn).map (indent ++ ·) ++
          ((some (indent ++ last)).filter (· ≠ [])).toList) := by
      rw [lines, hinset, List.map_append, List.map_singleton, ← List.cons_append,
        List.dropLast_concat, List.getLast?_concat, List.map_cons, List.map_map, List.map_map,
        List.cons_append]
      exact congrArg (fun ms => dropReturn l :: (ms ++ _))
        (List.map_congr_left fun m _ => dropReturn_indent hi m)
    by_cases hlast : last = []
    · subst hlast
      refine ⟨dropReturn l, init.map dropReturn, _, ?_, ?_, hlines'⟩
      · intro m hm
        obtain ⟨hm, -⟩ := Option.mem_filter_iff.mp (Option.mem_toList.mp hm)
        obtain rfl : indent ++ [] = m := Option.some.inj hm
        rw [List.append_nil]
        exact isBlank_indent hi
      · rw [hlines]
        exact congrArg (dropReturn l :: ·) (List.append_nil _)
    · have hkeep : ∀ m : List Char, m ≠ [] → (some m).filter (· ≠ []) = some m := fun m hm =>
        Option.filter_some_pos (decide_eq_true hm)
      rw [hkeep last hlast] at hlines
      rw [hkeep _ fun h => hlast (List.append_eq_nil_iff.mp h).2] at hlines'
      refine ⟨dropReturn l, _, [], by simp, hlines, ?_⟩
      rw [hlines', List.append_nil, List.map_append]
      rfl

/-- Indentation before all lines but the first does not count. -/
theorem decode_inset (hi : IsIndent indent) (raw : List Char) :
    decode (inset indent raw) = decode raw := by
  rw [decode, unescapeQuotes_inset hi, decode]
  obtain h | ⟨first, others, tail, htail, h, h'⟩ := lines_inset hi (unescapeQuotes raw)
  · rw [h]
  · have hshifts : Shifts indent (indent ++ ·) id := fun _ => .inl rfl
    rw [h, h', hshifts.trimBlank_dedent hi first others htail, List.map_id]

/-! ### What is left of the lines -/

/-- Only blank lines are dropped, at both ends. -/
theorem exists_trimBlank (ls : List (List Char)) : ∃ front back,
    ls = front ++ (trimBlank ls ++ back) ∧ ∀ l ∈ front ++ back, isBlank l = true := by
  have hback : trimBlank ls ++ (ls.dropWhile isBlank).rtakeWhile isBlank = ls.dropWhile isBlank :=
    List.rdropWhile_append_rtakeWhile
  refine ⟨ls.takeWhile isBlank, (ls.dropWhile isBlank).rtakeWhile isBlank, ?_, fun l hl => ?_⟩
  · rw [hback, List.takeWhile_append_dropWhile]
  · rcases List.mem_append.mp hl with hl | hl
    · exact List.mem_takeWhile_imp hl
    · exact List.mem_rtakeWhile_imp hl

/-- The lines that are not blank stay, all of them further up by as many places. -/
theorem getElem?_trimBlank (ls : List (List Char)) : ∃ above, ∀ (i : Nat) l, ls[i]? = some l →
    isBlank l = false → above ≤ i ∧ (trimBlank ls)[i - above]? = some l := by
  obtain ⟨front, back, hls, hblank⟩ := exists_trimBlank ls
  refine ⟨front.length, fun i l hl hb => ?_⟩
  have hout : l ∉ front ++ back := fun hm => by rw [hblank l hm] at hb; cases hb
  obtain ⟨hfront, hback⟩ := not_or.mp (List.mem_append.not.mp hout)
  rw [hls] at hl
  have hle : front.length ≤ i := by
    by_contra hlt
    rw [List.getElem?_append_left (Nat.lt_of_not_le hlt)] at hl
    exact hfront (List.mem_of_getElem? hl)
  rw [List.getElem?_append_right hle] at hl
  have hlt : i - front.length < (trimBlank ls).length := by
    by_contra hge
    rw [List.getElem?_append_right (Nat.le_of_not_lt hge)] at hl
    exact hback (List.mem_of_getElem? hl)
  rw [List.getElem?_append_left hlt] at hl
  exact ⟨hle, hl⟩

theorem commonIndent_le {l : List Char} (hl : l ∈ ls) (hb : isBlank l = false) :
    commonIndent ls ≤ indentOf l := by
  obtain ⟨m, hm, hmb, hmin⟩ := exists_leftmost ⟨l, hl, hb⟩
  rw [commonIndent_eq hm hmb hmin]
  exact hmin l hl hb

theorem isIndent_take {n : Nat} {l : List Char} (h : n ≤ indentOf l) : IsIndent (l.take n) := by
  intro c hc
  rw [← List.takeWhile_append_dropWhile (l := l), List.take_append_of_le_length h] at hc
  simpa using List.mem_takeWhile_imp (List.mem_of_mem_take hc)

/-- A line of which no more than its indentation is cut off. -/
theorem exists_indent {n : Nat} {l : List Char} (h : n ≤ indentOf l) :
    ∃ front, IsIndent front ∧ front.length = n ∧ l = front ++ l.drop n := by
  refine ⟨l.take n, isIndent_take h, ?_, (List.take_append_drop n l).symm⟩
  exact List.length_take_of_le (h.trans (List.takeWhile_prefix _).length_le)

/-- A line that is not blank stands in the value as it stood in the text, but for the indentation
that is cut off from all. -/
theorem getElem?_dedent {i : Nat} {l : List Char} (hl : ls[i + 1]? = some l)
    (hb : isBlank l = false) : (dedent ls)[i + 1]? = some (l.drop (commonIndent ls.tail)) ∧
      isBlank (l.drop (commonIndent ls.tail)) = false ∧
      indentOf l = commonIndent ls.tail + indentOf (l.drop (commonIndent ls.tail)) := by
  cases ls with
  | nil => cases hl
  | cons first others =>
    rw [List.getElem?_cons_succ] at hl
    rw [List.tail_cons]
    obtain ⟨front, hfront, hlength, heq⟩ :=
      exists_indent (commonIndent_le (List.mem_of_getElem? hl) hb)
    have hcut : dropBytes? (commonIndent others) l = some (l.drop (commonIndent others)) := by
      have hdrop := dropBytes?_append hfront 0 (l.drop (commonIndent others))
      rwa [hlength, Nat.add_zero, ← heq, dropBytes?] at hdrop
    refine ⟨?_, ?_, ?_⟩
    · rw [dedent, List.getElem?_cons_succ, List.getElem?_map, hl, Option.map_some, hcut,
        Option.getD_some]
    · rw [← isBlank_append_indent hfront, ← heq, hb]
    · conv_lhs => rw [heq, indentOf_append hfront, hlength]

theorem exists_suffix_of_mem_dedent {l : List Char} (h : l ∈ dedent ls) : ∃ m ∈ ls, l <:+ m := by
  cases ls with
  | nil => cases h
  | cons first others =>
    rcases List.mem_cons.mp h with rfl | h
    · exact ⟨l, List.mem_cons_self, List.suffix_rfl⟩
    · obtain ⟨m, hm, rfl⟩ := List.mem_map.mp h
      exact ⟨m, List.mem_cons_of_mem _ hm, dropBytes?_suffix _ m⟩

/-- The lines of the value. -/
theorem splitFeeds_decode {raw : List Char}
    (h : trimBlank (dedent (lines (unescapeQuotes raw))) ≠ []) :
    splitFeeds (decode raw) = trimBlank (dedent (lines (unescapeQuotes raw))) := by
  refine splitFeeds_joinLines h fun l hl => ?_
  obtain ⟨m, hm, hsuffix⟩ := exists_suffix_of_mem_dedent ((trimBlank_isInfix _).subset hl)
  exact fun hn => notMem_of_mem_lines hm (hsuffix.subset hn)

/-- The value of a block string does not depend on how deep it is indented. If it is not empty, it
neither begins nor ends with a blank line, and each line of it is the end of a line of the text. All
lines but the first that are not blank stand in it, further up by as many lines and further left
by as many characters, so that one stands as far in from another as it did. -/
theorem decode_indented (raw : List Char) :
    let text := lines (unescapeQuotes raw)
    let value := splitFeeds (decode raw)
    (∀ indent, IsIndent indent → decode (inset indent raw) = decode raw) ∧
    (decode raw ≠ [] → (∀ l ∈ value.head?, isBlank l = false) ∧
      (∀ l ∈ value.getLast?, isBlank l = false) ∧ ∀ l ∈ value, ∃ m ∈ text, l <:+ m) ∧
    ∃ above depth, ∀ i j l m, 0 < i → 0 < j → text[i]? = some l → text[j]? = some m →
      isBlank l = false → isBlank m = false → above ≤ i ∧ above ≤ j ∧
        value[i - above]? = some (l.drop depth) ∧ value[j - above]? = some (m.drop depth) ∧
        (indentOf (l.drop depth) : ℤ) - indentOf (m.drop depth) = indentOf l - indentOf m := by
  intro text value
  refine ⟨fun indent hi => decode_inset hi raw, fun hne => ?_, ?_⟩
  · have hlines : trimBlank (dedent text) ≠ [] := fun h => hne (congrArg joinLines h)
    have hvalue : value = trimBlank (dedent text) := splitFeeds_decode hlines
    rw [hvalue]
    exact ⟨head?_trimBlank, getLast?_trimBlank, fun l hl =>
      exists_suffix_of_mem_dedent ((trimBlank_isInfix _).subset hl)⟩
  · obtain ⟨above, habove⟩ := getElem?_trimBlank (dedent text)
    have hline : ∀ i l, 0 < i → text[i]? = some l → isBlank l = false → above ≤ i ∧
        value[i - above]? = some (l.drop (commonIndent text.tail)) ∧
        indentOf l = commonIndent text.tail + indentOf (l.drop (commonIndent text.tail)) := by
      intro i l hi hl hb
      obtain ⟨k, rfl⟩ := Nat.exists_eq_succ_of_ne_zero hi.ne'
      obtain ⟨hcut, hcutb, hindent⟩ := getElem?_dedent hl hb
      obtain ⟨hle, hget⟩ := habove _ _ hcut hcutb
      have hvalue : value = trimBlank (dedent text) :=
        splitFeeds_decode (List.ne_nil_of_mem (List.mem_of_getElem? hget))
      rw [hvalue]
      exact ⟨hle, hget, hindent⟩
    refine ⟨above, commonIndent text.tail, fun i j l m hi hj hl hm hlb hmb => ?_⟩
    obtain ⟨hile, higet, hiindent⟩ := hline i l hi hl hlb
    obtain ⟨hjle, hjget, hjindent⟩ := hline j m hj hm hmb
    exact ⟨hile, hjle, higet, hjget, by omega⟩

/-- A line of white space that is cut in the middle of a character, and escaped triple quotes. -/
theorem decode_indented_quotes :
    let raw := "\n  a\n\u3000\n    \\\"\"\"b\n ".toList
    let others := ["  a".toList, "\u3000".toList, "    \"\"\"b".toList, " ".toList]
    lines (unescapeQuotes raw) = [] :: others ∧ decode raw = "a\n\n  \"\"\"b".toList ∧
      (IsIndent ['\t'] ∧ decode (inset ['\t'] raw) = decode raw) ∧
      (decode raw ≠ [] ∧ ∀ l ∈ splitFeeds (decode raw), ∃ m ∈ [] :: others, l <:+ m) ∧
      ∃ above depth, (splitFeeds (decode raw))[3 - above]? = some ("    \"\"\"b".toList.drop depth) ∧
        (indentOf ("    \"\"\"b".toList.drop depth) : ℤ) - indentOf ("  a".toList.drop depth) =
          indentOf "    \"\"\"b".toList - indentOf "  a".toList := by
  intro raw others
  have htext : lines (unescapeQuotes raw) = [] :: others := by decide +kernel
  have hcommon : commonIndent others = 2 := by decide +kernel
  have hcut : (others.map fun l => (dropBytes? 2 l).getD []) =
      [['a'], [], "  \"\"\"b".toList, []] := by simp [others, dropBytes?, Char.utf8Size]
  have hvalue : decode raw = "a\n\n  \"\"\"b".toList := by
    rw [decode, htext, dedent, hcommon, hcut]
    decide +kernel
  have hi : IsIndent ['\t'] := by simp [IsIndent]
  have hne : decode raw ≠ [] := by rw [hvalue]; decide
  obtain ⟨hinset, hends, above, depth, hlines⟩ := decode_indented raw
  rw [htext] at hends hlines
  obtain ⟨-, -, hthird, -, hdiff⟩ := hlines 3 1 "    \"\"\"b".toList "  a".toList
    (by decide) (by decide) rfl rfl (by decide) (by decide)
  exact ⟨htext, hvalue, ⟨hi, hinset _ hi⟩, ⟨hne, (hends hne).2.2⟩, above, depth, hthird, hdiff⟩

end Block

end SchemaLang
