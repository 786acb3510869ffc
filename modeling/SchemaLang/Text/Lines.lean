/-! Cutting a text into lines. A line feed ends a line; a carriage return right before
it belongs to that end. -/

namespace SchemaLang

/-- The pieces between the line feeds of a text, one more than there are line feeds. -/
def splitFeeds : List Char → List (List Char)
  | [] => [[]]
  | c :: cs => if c = '\n' then [] :: splitFeeds cs else (splitFeeds cs).modifyHead (c :: ·)

/-- A line without the carriage return at its end. -/
def dropReturn (line : List Char) : List Char :=
  if line.getLast? = some '\r' then line.dropLast else line

/-- The lines of a text. The last piece has no end, so it keeps its carriage return, and it
is no line if it is empty. -/
def lines (cs : List Char) : List (List Char) :=
  (splitFeeds cs).dropLast.map dropReturn ++ ((splitFeeds cs).getLast?.filter (· ≠ [])).toList

/-- Lines with line feeds between them. -/
def joinLines (ls : List (List Char)) : List Char := ['\n'].intercalate ls

theorem splitFeeds_ne_nil (cs : List Char) : splitFeeds cs ≠ [] := by
  induction cs with
  | nil => simp [splitFeeds]
  | cons c cs ih =>
    unfold splitFeeds
    split
    · simp
    · cases h : splitFeeds cs with
      | nil => exact absurd h ih
      | cons l ls => simp

/-- Joining undoes splitting. -/
theorem joinLines_splitFeeds (cs : List Char) : joinLines (splitFeeds cs) = cs := by
  induction cs with
  | nil => rfl
  | cons c cs ih =>
    unfold splitFeeds
    split
    · subst c
      cases h : splitFeeds cs with
      | nil => exact absurd h (splitFeeds_ne_nil cs)
      | cons l ls =>
        rw [← ih, h]
        simp [joinLines, List.intercalate]
    · cases h : splitFeeds cs with
      | nil => exact absurd h (splitFeeds_ne_nil cs)
      | cons l ls =>
        rw [← ih, h]
        cases ls <;> simp [joinLines, List.intercalate]

end SchemaLang
