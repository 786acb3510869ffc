import Mathlib.Data.List.DropRight
import SchemaLang.Proofs.Text.Block

/-! What becomes of a value that is written as a block and read again. The indentation that is
written before its lines is cut off again, however deep it is, and with it the indentation that the
lines of the value share; blank lines at both ends and carriage returns at the ends of lines go too.
So a value that has lines comes out as it went in exactly if it is block-safe. -/

namespace SchemaLang

/-! ### Lines -/

theorem splitFeeds_append {l : List Char} (h : '\n' ∉ l) (cs : List Char) :
    splitFeeds (l ++ '\n' :: cs) = l :: splitFeeds cs := by
  induction l with
  | nil => rw [List.nil_append, splitFeeds, if_pos rfl]
  | cons c l ih =>
    have hc : c ≠ '\n' := fun hc => h (hc ▸ List.mem_cons_self)
    rw [List.cons_append, splitFeeds, if_neg hc, ih fun hm => h (List.mem_cons_of_mem c hm)]
    rfl

theorem splitFeeds_of_notMem {l : List Char} (h : '\n' ∉ l) : splitFeeds l = [l] := by
  induction l with
  | nil => rfl
  | cons c l ih =>
    have hc : c ≠ '\n' := fun hc => h (hc ▸ List.mem_cons_self)
    rw [splitFeeds, if_neg hc, ih fun hm => h (List.mem_cons_of_mem c hm)]
    rfl

theorem notMem_of_mem_splitFeeds {l cs : List Char} (h : l ∈ splitFeeds cs) : '\n' ∉ l := by
  induction cs generalizing l with
  | nil =>
    obtain rfl : l = [] := by simpa [splitFeeds] using h
    simp
  | cons c cs ih =>
    unfold splitFeeds at h
    split at h
    next =>
      rcases List.mem_cons.mp h with rfl | h
      · simp
      · exact ih h
    next hc =>
      cases hs : splitFeeds cs with
      | nil => simp [hs] at h
      | cons m ms =>
        rw [hs, List.modifyHead_cons] at h
        rcases List.mem_cons.mp h with rfl | h
        · have hm := ih (hs ▸ List.mem_cons_self : m ∈ splitFeeds cs)
          simp [hm, Ne.symm hc]
        · exact ih (hs ▸ List.mem_cons_of_mem m h)

theorem splitFeeds_lines (f : List Char → List Char) {ls : List (List Char)}
    (h : ∀ l ∈ ls, '\n' ∉ f l) (rest : List Char) :
    splitFeeds (ls.flatMap (fun l => f l ++ ['\n']) ++ rest) = ls.map f ++ splitFeeds rest := by
  induction ls with
  | nil => rfl
  | cons l ls ih =>
    rw [List.flatMap_cons, List.append_assoc, List.append_assoc, List.singleton_append,
      splitFeeds_append (h l List.mem_cons_self), ih fun m hm => h m (List.mem_cons_of_mem l hm)]
    rfl

theorem notMem_dropReturn {l : List Char} (h : '\n' ∉ l) : '\n' ∉ dropReturn l := by
  unfold dropReturn
  split
  next => exact fun hm => h (List.dropLast_subset l hm)
  next => exact h

theorem length_dropReturn_le (l : List Char) : (dropReturn l).length ≤ l.length := by
  unfold dropReturn
  split
  next => simp
  next => exact Nat.le_refl _

theorem dropReturn_of_ne {l : List Char} (h : l.getLast? ≠ some '\r') : dropReturn l = l :=
  if_neg h

theorem map_dropReturn {ls : List (List Char)} (h : ∀ l ∈ ls, l.getLast? ≠ some '\r') :
    ls.map dropReturn = ls :=
  (List.map_congr_left fun l hl => dropReturn_of_ne (h l hl)).trans (List.map_id _)

/-- A line with a carriage return at its end is longer than without it. -/
theorem length_dropReturn_lt {l : List Char} (h : l.getLast? = some '\r') :
    (dropReturn l).length < l.length := by
  have hne : l ≠ [] := by
    rintro rfl
    cases h
  have hpos := List.length_pos_iff.mpr hne
  rw [dropReturn, if_pos h, List.length_dropLast]
  omega

theorem notMem_of_mem_lines {l cs : List Char} (h : l ∈ lines cs) : '\n' ∉ l := by
  rcases List.mem_append.mp h with h | h
  · obtain ⟨m, hm, rfl⟩ := List.mem_map.mp h
    exact notMem_dropReturn (notMem_of_mem_splitFeeds (List.dropLast_subset _ hm))
  · obtain ⟨hlast, -⟩ := Option.mem_filter_iff.mp (Option.mem_toList.mp h)
    exact notMem_of_mem_splitFeeds (List.mem_of_getLast? hlast)

/-- Splitting undoes joining. -/
theorem splitFeeds_joinLines {ls : List (List Char)} (hne : ls ≠ []) (h : ∀ l ∈ ls, '\n' ∉ l) :
    splitFeeds (joinLines ls) = ls := by
  induction ls with
  | nil => exact absurd rfl hne
  | cons l ls ih =>
    obtain ⟨hl, hls⟩ := List.forall_mem_cons.mp h
    cases ls with
    | nil =>
      have hjoin : joinLines [l] = l := by simp [joinLines, List.intercalate]
      rw [hjoin, splitFeeds_of_notMem hl]
    | cons m ms =>
      have hjoin : joinLines (l :: m :: ms) = l ++ '\n' :: joinLines (m :: ms) := by
        simp [joinLines, List.intercalate]
      rw [hjoin, splitFeeds_append hl, ih (List.cons_ne_nil m ms) hls]

/-- A value with a last line that is not empty has as many lines as pieces between line feeds. -/
theorem lines_eq_of_getLast? {last value : List Char} (h : (splitFeeds value).getLast? = some last)
    (hne : last ≠ []) : lines value = (splitFeeds value).dropLast.map dropReturn ++ [last] := by
  have hkeep : (some last).filter (· ≠ []) = some last := by
    rw [Option.filter_some_pos]
    exact decide_eq_true hne
  rw [lines, h, hkeep, Option.toList_some]

theorem lines_eq_splitFeeds {last value : List Char} (h : (splitFeeds value).getLast? = some last)
    (hne : last ≠ []) (hreturn : ∀ l ∈ splitFeeds value, l.getLast? ≠ some '\r') :
    lines value = splitFeeds value := by
  rw [lines_eq_of_getLast? h hne,
    map_dropReturn fun l hl => hreturn l (List.dropLast_subset _ hl),
    List.dropLast_append_getLast? last h]

namespace Block

variable {indent value : List Char} {ls : List (List Char)}

/-! ### Blank lines at both ends -/

theorem ne_nil_of_isBlank_eq_false {l : List Char} (h : isBlank l = false) : l ≠ [] := by
  rintro rfl
  cases h

theorem isBlank_of_suffix {l m : List Char} (h : l <:+ m) (hm : isBlank m = true) :
    isBlank l = true :=
  List.all_eq_true.mpr fun c hc => List.all_eq_true.mp hm c (h.subset hc)

theorem trimBlank_concat {l : List Char} (h : isBlank l = true) :
    trimBlank (ls ++ [l]) = trimBlank ls := by
  have hl : [l].dropWhile isBlank = [] := List.dropWhile_cons_of_pos h
  rw [trimBlank, trimBlank, List.dropWhile_append]
  split
  next hnil => rw [hl, List.isEmpty_iff.mp hnil]
  next => exact List.rdropWhile_concat_pos isBlank _ l h

theorem trimBlank_append (ls : List (List Char)) {tail : List (List Char)}
    (h : ∀ l ∈ tail, isBlank l = true) : trimBlank (ls ++ tail) = trimBlank ls := by
  induction tail generalizing ls with
  | nil => rw [List.append_nil]
  | cons l tail ih =>
    obtain ⟨hl, htail⟩ := List.forall_mem_cons.mp h
    rw [← List.singleton_append, ← List.append_assoc, ih _ htail, trimBlank_concat hl]

theorem trimBlank_isInfix (ls : List (List Char)) : trimBlank ls <:+: ls := by
  have hback := List.rdropWhile_prefix isBlank (ls.dropWhile isBlank)
  exact hback.isInfix.trans (List.dropWhile_suffix isBlank).isInfix

theorem head?_trimBlank : ∀ l ∈ (trimBlank ls).head?, isBlank l = false := by
  intro l hl
  obtain ⟨ms, hms⟩ := List.head?_eq_some_iff.mp hl
  obtain ⟨tail, htail⟩ := List.rdropWhile_prefix isBlank (ls.dropWhile isBlank)
  change trimBlank ls ++ tail = ls.dropWhile isBlank at htail
  have hhead := List.head?_dropWhile_not isBlank ls
  rw [← htail, hms] at hhead
  exact hhead

theorem getLast?_trimBlank : ∀ l ∈ (trimBlank ls).getLast?, isBlank l = false := by
  intro l hl
  rw [trimBlank, List.getLast?_reverse] at hl
  have hhead := List.head?_dropWhile_not isBlank (ls.dropWhile isBlank).reverse
  rw [Option.mem_def.mp hl] at hhead
  exact hhead

theorem dropWhile_isBlank_of_head? (h : ∀ l ∈ ls.head?, isBlank l = false) :
    ls.dropWhile isBlank = ls := by
  cases ls with
  | nil => rfl
  | cons l ls => exact List.dropWhile_cons_of_neg (by simp [h l rfl])

/-- Nothing is dropped from lines between two that are not blank. -/
theorem trimBlank_of_ends (hfirst : ∀ l ∈ ls.head?, isBlank l = false)
    (hlast : ∀ l ∈ ls.getLast?, isBlank l = false) : trimBlank ls = ls := by
  rw [trimBlank, dropWhile_isBlank_of_head? hfirst, dropWhile_isBlank_of_head?,
    List.reverse_reverse]
  rwa [List.head?_reverse]

/-! ### Cutting indentation -/

theorem dropBytes?_append (hi : IsIndent indent) (n : Nat) (l : List Char) :
    dropBytes? (indent.length + n) (indent ++ l) = dropBytes? n l := by
  induction indent with
  | nil => rw [List.length_nil, Nat.zero_add, List.nil_append]
  | cons c cs ih =>
    have hc : c.utf8Size = 1 := by
      rcases hi c List.mem_cons_self with rfl | rfl <;> decide
    rw [List.length_cons, Nat.succ_add, List.cons_append, dropBytes?, hc, if_pos (by omega),
      Nat.add_sub_cancel]
    exact ih fun d hd => hi d (List.mem_cons_of_mem c hd)

theorem dropBytes?_nil (n : Nat) : (dropBytes? n []).getD [] = [] := by
  cases n <;> rw [dropBytes?] <;> rfl

theorem dropBytes?_zero (l : List Char) : (dropBytes? 0 l).getD [] = l := by
  rw [dropBytes?, Option.getD_some]

theorem dropBytes?_suffix (n : Nat) (l : List Char) : (dropBytes? n l).getD [] <:+ l := by
  induction l generalizing n with
  | nil => exact (dropBytes?_nil n).symm ▸ List.suffix_rfl
  | cons c cs ih =>
    cases n with
    | zero => exact (dropBytes?_zero (c :: cs)).symm ▸ List.suffix_rfl
    | succ n =>
      rw [dropBytes?]
      split
      next => exact (ih _).trans (List.suffix_cons c cs)
      next => exact List.nil_suffix

/-- A line of which some bytes are cut off is shorter. -/
theorem length_dropBytes?_lt {n : Nat} (hn : n ≠ 0) {l : List Char} (hl : l ≠ []) :
    ((dropBytes? n l).getD []).length < l.length := by
  obtain ⟨n, rfl⟩ := Nat.exists_eq_succ_of_ne_zero hn
  obtain ⟨c, cs, rfl⟩ := List.exists_cons_of_ne_nil hl
  rw [dropBytes?, List.length_cons]
  split
  next => exact Nat.lt_succ_of_le (dropBytes?_suffix _ cs).length_le
  next => exact Nat.succ_pos _

/-! ### The indentation that lines share -/

theorem commonIndent_of_forall (h : ∀ l ∈ ls, isBlank l = true) : commonIndent ls = 0 := by
  have hnone : ls.filter (!isBlank ·) = [] := by
    rw [List.filter_eq_nil_iff]
    intro l hl
    simp [h l hl]
  rw [commonIndent, hnone]
  rfl

/-- It is that of any line that is not blank and that no other such line stands left of. -/
theorem commonIndent_eq {l : List Char} (hl : l ∈ ls) (hb : isBlank l = false)
    (hmin : ∀ m ∈ ls, isBlank m = false → indentOf l ≤ indentOf m) :
    commonIndent ls = indentOf l := by
  have hmin? : ((ls.filter (!isBlank ·)).map indentOf).min? = some (indentOf l) := by
    rw [List.min?_eq_some_iff]
    constructor
    · exact List.mem_map_of_mem (List.mem_filter.mpr ⟨hl, by simp [hb]⟩)
    · intro n hn
      obtain ⟨m, hm, rfl⟩ := List.mem_map.mp hn
      obtain ⟨hm, hmb⟩ := List.mem_filter.mp hm
      exact hmin m hm (by simpa using hmb)
  rw [commonIndent, hmin?, Option.getD_some]

theorem exists_leftmost (h : ∃ l ∈ ls, isBlank l = false) : ∃ l ∈ ls, isBlank l = false ∧
    ∀ m ∈ ls, isBlank m = false → indentOf l ≤ indentOf m := by
  obtain ⟨k, hk, hkb⟩ := h
  have hne : (ls.filter (!isBlank ·)).map indentOf ≠ [] := by
    simpa using ⟨k, hk, hkb⟩
  obtain ⟨n, hn⟩ := Option.isSome_iff_exists.mp (List.isSome_min?_iff.mpr hne)
  obtain ⟨hmem, hle⟩ := List.min?_eq_some_iff.mp hn
  obtain ⟨l, hl, rfl⟩ := List.mem_map.mp hmem
  obtain ⟨hl, hb⟩ := List.mem_filter.mp hl
  refine ⟨l, hl, by simpa using hb, fun m hm hmb => hle _ ?_⟩
  exact List.mem_map_of_mem (List.mem_filter.mpr ⟨hm, by simp [hmb]⟩)

/-! ### Indentation before lines -/

theorem isBlank_indent (hi : IsIndent indent) : isBlank indent = true := by
  refine List.all_eq_true.mpr fun c hc => ?_
  rcases hi c hc with rfl | rfl <;> decide

theorem isBlank_append_indent (hi : IsIndent indent) (l : List Char) :
    isBlank (indent ++ l) = isBlank l := by
  rw [isBlank, List.all_append, ← isBlank, isBlank_indent hi, Bool.true_and, isBlank]

theorem indentOf_append (hi : IsIndent indent) (l : List Char) :
    indentOf (indent ++ l) = indent.length + indentOf l := by
  have hp : ∀ c ∈ indent, decide (c = ' ') || decide (c = '\t') := by
    intro c hc
    simpa using hi c hc
  rw [indentOf, indentOf, List.takeWhile_append_of_pos hp, List.length_append]

/-- The lines that `f` makes are those that `g` makes with the indentation before them, unless they
are empty. -/
def Shifts (indent : List Char) (f g : List Char → List Char) : Prop :=
  ∀ l, f l = indent ++ g l ∨ f l = [] ∧ g l = []

namespace Shifts

variable {f g : List Char → List Char}

theorem isBlank_eq (h : Shifts indent f g) (hi : IsIndent indent) (l : List Char) :
    isBlank (f l) = isBlank (g l) := by
  rcases h l with h | ⟨hf, hg⟩
  · rw [h, isBlank_append_indent hi]
  · rw [hf, hg]

/-- As far as the lines are cut, the indentation before them goes first. -/
theorem dropBytes?_eq (h : Shifts indent f g) (hi : IsIndent indent) (n : Nat) (l : List Char) :
    (dropBytes? (indent.length + n) (f l)).getD [] = (dropBytes? n (g l)).getD [] := by
  rcases h l with h | ⟨hf, hg⟩
  · rw [h, dropBytes?_append hi]
  · rw [hf, hg, dropBytes?_nil, dropBytes?_nil]

/-- The lines share the indentation before them and what they shared without it. -/
theorem commonIndent_eq (h : Shifts indent f g) (hi : IsIndent indent)
    (hex : ∃ l ∈ ls, isBlank (g l) = false) {tail : List (List Char)}
    (ht : ∀ l ∈ tail, isBlank l = true) :
    commonIndent (ls.map f ++ tail) = indent.length + commonIndent (ls.map g) := by
  have hin : ∀ l ∈ ls, isBlank (g l) = false →
      indentOf (f l) = indent.length + indentOf (g l) := by
    intro l _ hb
    rcases h l with h | ⟨-, hnil⟩
    · rw [h, indentOf_append hi]
    · exact absurd hnil (ne_nil_of_isBlank_eq_false hb)
  have hexg : ∃ l ∈ ls.map g, isBlank l = false := by
    obtain ⟨l, hl, hb⟩ := hex
    exact ⟨g l, List.mem_map_of_mem hl, hb⟩
  obtain ⟨_, hmem, hb, hmin⟩ := exists_leftmost hexg
  obtain ⟨l, hl, rfl⟩ := List.mem_map.mp hmem
  rw [Block.commonIndent_eq hmem hb hmin, ← hin l hl hb]
  refine Block.commonIndent_eq (List.mem_append_left _ (List.mem_map_of_mem hl)) ?_ ?_
  · rw [h.isBlank_eq hi, hb]
  · intro m hm hmb
    rcases List.mem_append.mp hm with hm | hm
    · obtain ⟨k, hk, rfl⟩ := List.mem_map.mp hm
      rw [h.isBlank_eq hi] at hmb
      rw [hin l hl hb, hin k hk hmb]
      exact Nat.add_le_add_left (hmin _ (List.mem_map_of_mem hk) hmb) _
    · rw [ht m hm] at hmb
      cases hmb

/-- What is left of lines behind a first one does not depend on the indentation before them, nor on
blank lines at the end. -/
theorem trimBlank_dedent (h : Shifts indent f g) (hi : IsIndent indent) (first : List Char)
    (ls : List (List Char)) {tail : List (List Char)} (ht : ∀ l ∈ tail, isBlank l = true) :
    trimBlank (dedent (first :: (ls.map f ++ tail))) = trimBlank (dedent (first :: ls.map g)) := by
  by_cases hex : ∃ l ∈ ls, isBlank (g l) = false
  · rw [dedent, dedent, h.commonIndent_eq hi hex ht, List.map_append, ← List.cons_append,
      trimBlank_append, List.map_map, List.map_map]
    · exact congrArg (trimBlank ∘ (first :: ·))
        (List.map_congr_left fun l _ => h.dropBytes?_eq hi _ l)
    · intro l hl
      obtain ⟨m, hm, rfl⟩ := List.mem_map.mp hl
      exact isBlank_of_suffix (dropBytes?_suffix _ m) (ht m hm)
  · have hblank : ∀ l ∈ ls, isBlank (g l) = true := by
      intro l hl
      by_contra hb
      exact hex ⟨l, hl, by simpa using hb⟩
    have hfirst : ∀ ms : List (List Char), (∀ l ∈ ms, isBlank l = true) →
        trimBlank (dedent (first :: ms)) = trimBlank [first] := by
      intro ms hms
      have hid : ms.map (fun l => (dropBytes? 0 l).getD []) = ms :=
        (List.map_congr_left fun l _ => dropBytes?_zero l).trans (List.map_id _)
      rw [dedent, commonIndent_of_forall hms, hid]
      exact trimBlank_append [first] hms
    rw [hfirst, hfirst]
    · simpa using hblank
    · intro l hl
      rcases List.mem_append.mp hl with hl | hl
      · obtain ⟨k, hk, rfl⟩ := List.mem_map.mp hl
        rw [h.isBlank_eq hi, hblank k hk]
      · exact ht l hl

end Shifts

/-! ### Bodies -/

theorem notMem_indent (hi : IsIndent indent) : '\n' ∉ indent := by
  intro hm
  rcases hi _ hm with h | h <;> cases h

theorem notMem_indentLine (hi : IsIndent indent) {l : List Char} (hl : '\n' ∉ l) :
    '\n' ∉ indentLine indent l := by
  unfold indentLine
  split
  next => simp
  next =>
    intro hm
    rcases List.mem_append.mp hm with hm | hm
    · exact notMem_indent hi hm
    · exact hl hm

theorem dropReturn_append (indent : List Char) {l : List Char} (hne : l ≠ []) :
    dropReturn (indent ++ l) = indent ++ dropReturn l := by
  have hlast : (indent ++ l).getLast? = l.getLast? := by
    rw [List.getLast?_append, List.getLast?_eq_some_getLast hne, Option.some_or]
  unfold dropReturn
  rw [hlast]
  split
  next => exact List.dropLast_append_of_ne_nil hne
  next => rfl

/-- A line of a body, when its end is read, is that of the value with the indentation before it,
unless it is empty. -/
theorem shifts_indentLine (indent : List Char) :
    Shifts indent (fun l => dropReturn (indentLine indent l)) dropReturn := by
  intro l
  dsimp only [indentLine]
  split
  next h => exact .inr ⟨rfl, by rw [h]; rfl⟩
  next hne => exact .inl (dropReturn_append indent hne)

/-- The lines of any body: those of the value, indented, between two blank ones at most. -/
theorem lines_unescapeQuotes_body (hi : IsIndent indent) (value : List Char) :
    lines (unescapeQuotes (body indent value)) =
      [] :: ((lines value).map (fun l => dropReturn (indentLine indent l)) ++
        if indent = [] then [] else [indent]) := by
  have hfeeds : splitFeeds (unescapeQuotes (body indent value)) =
      ([] :: (lines value).map (indentLine indent)) ++ [indent] := by
    rw [unescapeQuotes_body hi, List.cons_append, splitFeeds, if_pos rfl,
      splitFeeds_lines _ fun l hl => notMem_indentLine hi (notMem_of_mem_lines hl),
      splitFeeds_of_notMem (notMem_indent hi)]
    rfl
  rw [lines, hfeeds, List.dropLast_concat, List.getLast?_concat, List.map_cons, List.map_map,
    List.cons_append]
  split
  next he =>
    rw [Option.filter_some_neg (by simpa using he)]
    rfl
  next he =>
    rw [Option.filter_some_pos (by simpa using he)]
    rfl

/-- What is read of a value that was written as a block. -/
def reflow (value : List Char) : List Char :=
  joinLines (trimBlank (dedent ([] :: (lines value).map dropReturn)))

/-- Any indentation that a value is written with is cut off when it is read. -/
theorem read_write_eq_reflow (hi : IsIndent indent) (value : List Char) :
    read (write indent value) = reflow value := by
  rw [read_write_eq, decode, lines_unescapeQuotes_body hi, reflow,
    (shifts_indentLine indent).trimBlank_dedent hi]
  intro l hl
  split at hl
  next => cases hl
  next => exact List.mem_singleton.mp hl ▸ isBlank_indent hi

/-! ### Values that come out as they went in -/

/-- A value that keeps its lines when it is written as a block: it neither begins nor ends with a
blank line, none of its lines ends with a carriage return, and a line that is not blank stands
without indentation. -/
structure Safe (value : List Char) : Prop where
  first : ∀ l ∈ (splitFeeds value).head?, isBlank l = false
  last : ∀ l ∈ (splitFeeds value).getLast?, isBlank l = false
  noReturn : ∀ l ∈ splitFeeds value, l.getLast? ≠ some '\r'
  flush : ∃ l ∈ splitFeeds value, isBlank l = false ∧ ∀ c ∈ l.head?, c ≠ ' ' ∧ c ≠ '\t'

/-- The lines that come out, from the first to the last that is not blank, each without the
indentation that all share. -/
theorem trimBlank_dedent_isInfix (gs : List (List Char)) :
    trimBlank (dedent ([] :: gs)) <:+:
      gs.map fun l => (dropBytes? (commonIndent gs) l).getD [] :=
  trimBlank_isInfix (gs.map fun l => (dropBytes? (commonIndent gs) l).getD [])

/-- The pieces of a value that comes out as it went in are the lines that come out. -/
theorem trimBlank_eq_splitFeeds (hfeed : '\n' ∈ value) (h : reflow value = value) :
    trimBlank (dedent ([] :: (lines value).map dropReturn)) = splitFeeds value := by
  have hne : trimBlank (dedent ([] :: (lines value).map dropReturn)) ≠ [] := by
    intro hnil
    rw [reflow, hnil] at h
    rw [← h] at hfeed
    cases hfeed
  have hmem : ∀ l ∈ trimBlank (dedent ([] :: (lines value).map dropReturn)), '\n' ∉ l := by
    intro l hl
    obtain ⟨g, hg, rfl⟩ := List.mem_map.mp ((trimBlank_dedent_isInfix _).subset hl)
    obtain ⟨m, hm, rfl⟩ := List.mem_map.mp hg
    exact fun hn => notMem_dropReturn (notMem_of_mem_lines hm) ((dropBytes?_suffix _ _).subset hn)
  conv_rhs => rw [← h, reflow, splitFeeds_joinLines hne hmem]

/-- A line that is not shortened ends without a carriage return. -/
theorem getLast?_ne_of_dropBytes?_eq {n : Nat} {l m : List Char}
    (h : (dropBytes? n m).getD [] = l) (hm : m.length ≤ (dropReturn l).length) :
    l.getLast? ≠ some '\r' := by
  intro hlast
  have hle : l.length ≤ m.length := by
    rw [← h]
    exact (dropBytes?_suffix n m).length_le
  have hlt := length_dropReturn_lt hlast
  omega

/-- Every piece of such a value is its own line, without a carriage return at its end and
without indentation that it would share with the others. -/
theorem piece_eq_of_reflow_eq (hfeed : '\n' ∈ value) (h : reflow value = value) :
    ∀ l ∈ splitFeeds value, l.getLast? ≠ some '\r' ∧
      (dropBytes? (commonIndent (splitFeeds value)) l).getD [] = l := by
  obtain ⟨last, hlast⟩ : ∃ last, (splitFeeds value).getLast? = some last :=
    ⟨_, List.getLast?_eq_some_getLast (splitFeeds_ne_nil value)⟩
  have htrim := trimBlank_eq_splitFeeds hfeed h
  have hnonempty : last ≠ [] :=
    ne_nil_of_isBlank_eq_false (getLast?_trimBlank last (by rw [htrim, hlast]; rfl))
  have hlines := lines_eq_of_getLast? hlast hnonempty
  have hconcat := List.dropLast_append_getLast? last hlast
  have hlength : (lines value).length = (splitFeeds value).length := by
    rw [hlines, ← congrArg List.length hconcat, List.length_append, List.length_map,
      List.length_append]
  -- No line is dropped, so every piece comes from its own line.
  have hinfix := trimBlank_dedent_isInfix ((lines value).map dropReturn)
  rw [htrim] at hinfix
  have hmap := hinfix.eq_of_length (by rw [List.length_map, List.length_map, hlength])
  have hreturn : ∀ l ∈ splitFeeds value, l.getLast? ≠ some '\r' := by
    have heq := hconcat.trans hmap
    rw [hlines, List.map_append, List.map_append] at heq
    obtain ⟨hinit, hend⟩ := List.append_inj' heq rfl
    rw [List.map_map, List.map_map] at hinit
    have hself := List.map_inj_left.mp ((List.map_id _).trans hinit)
    intro l hl
    rw [← hconcat] at hl
    rcases List.mem_append.mp hl with hl | hl
    · exact getLast?_ne_of_dropBytes?_eq (hself l hl).symm (length_dropReturn_le _)
    · obtain rfl := List.mem_singleton.mp hl
      exact getLast?_ne_of_dropBytes?_eq (List.singleton_inj.mp hend).symm (Nat.le_refl _)
  have hself := lines_eq_splitFeeds hlast hnonempty hreturn
  rw [hself, map_dropReturn hreturn] at hmap
  exact fun l hl => ⟨hreturn l hl, (List.map_inj_left.mp ((List.map_id _).trans hmap) l hl).symm⟩

theorem indentOf_eq_zero_iff {l : List Char} :
    indentOf l = 0 ↔ ∀ c ∈ l.head?, c ≠ ' ' ∧ c ≠ '\t' := by
  rw [indentOf, List.length_eq_zero_iff]
  cases l with
  | nil => simp
  | cons c cs => simp [List.takeWhile_cons]

theorem Safe.reflow_eq (h : Safe value) : reflow value = value := by
  obtain ⟨l, hl, hb, hflush⟩ := h.flush
  have hindent := indentOf_eq_zero_iff.mpr hflush
  have hcommon : commonIndent (splitFeeds value) = 0 := by
    rw [commonIndent_eq hl hb fun m _ _ => hindent ▸ Nat.zero_le _, hindent]
  have hcut : (splitFeeds value).map (fun l => (dropBytes? 0 l).getD []) = splitFeeds value :=
    (List.map_congr_left fun l _ => dropBytes?_zero l).trans (List.map_id _)
  have hlast := List.getLast?_eq_some_getLast (splitFeeds_ne_nil value)
  rw [reflow, lines_eq_splitFeeds hlast (ne_nil_of_isBlank_eq_false (h.last _ hlast)) h.noReturn,
    map_dropReturn h.noReturn, dedent, hcommon, hcut]
  exact (congrArg joinLines (trimBlank_of_ends h.first h.last)).trans (joinLines_splitFeeds value)

/-- A value that has lines comes out as it went in exactly if it is block-safe. -/
theorem reflow_eq_iff (hfeed : '\n' ∈ value) : reflow value = value ↔ Safe value := by
  constructor
  · intro h
    have htrim := trimBlank_eq_splitFeeds hfeed h
    have hpiece := piece_eq_of_reflow_eq hfeed h
    have hfirst : ∀ l ∈ (splitFeeds value).head?, isBlank l = false := htrim ▸ head?_trimBlank
    obtain ⟨l, hl, hb, hleft⟩ := exists_leftmost
      ⟨_, List.head_mem (splitFeeds_ne_nil value), hfirst _ (List.head?_eq_some_head _)⟩
    -- The lines share no indentation, since none of it was cut off.
    have hzero : commonIndent (splitFeeds value) = 0 := by
      by_contra hne
      have hlt := length_dropBytes?_lt hne (ne_nil_of_isBlank_eq_false hb)
      rw [(hpiece l hl).2] at hlt
      exact Nat.lt_irrefl _ hlt
    rw [commonIndent_eq hl hb hleft] at hzero
    exact ⟨hfirst, htrim ▸ getLast?_trimBlank, fun l hl => (hpiece l hl).1,
      l, hl, hb, indentOf_eq_zero_iff.mp hzero⟩
  · exact Safe.reflow_eq

/-- A block-safe value is read back. -/
theorem read_write (hi : IsIndent indent) (h : Safe value) : read (write indent value) = value := by
  rw [read_write_eq_reflow hi, h.reflow_eq]

end Block

end SchemaLang
