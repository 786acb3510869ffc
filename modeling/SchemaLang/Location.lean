/-! Places in a text: a position by line and column, a span by byte offsets, and
the two together. Positions are ordered by line and then by column, which is the
order in which a reader meets them. -/

namespace SchemaLang

/-- A line and a column, both counted from 1. A column counts characters, a tab being one. -/
structure Position where
  line : Nat
  column : Nat
  deriving DecidableEq, Repr

namespace Position

/-- The position of the first character of a text. -/
def start : Position := ⟨1, 1⟩

instance : Inhabited Position := ⟨start⟩

/-- Line first, then column. -/
def compare (a b : Position) : Ordering :=
  (Ord.compare a.line b.line).then (Ord.compare a.column b.column)

instance : Ord Position := ⟨compare⟩

/-- Is `a` at or before `b`? -/
def le (a b : Position) : Bool := a.line < b.line || (a.line == b.line && a.column ≤ b.column)

def text (p : Position) : String := s!"line: {p.line} column: {p.column}"

theorem le_refl (a : Position) : a.le a = true := by simp [le]

theorem le_trans {a b c : Position} (hab : a.le b = true) (hbc : b.le c = true) :
    a.le c = true := by
  simp only [le, Bool.or_eq_true, Bool.and_eq_true, decide_eq_true_eq, beq_iff_eq] at *
  omega

theorem le_total (a b : Position) : (a.le b || b.le a) = true := by
  simp only [le, Bool.or_eq_true, Bool.and_eq_true, decide_eq_true_eq, beq_iff_eq]
  omega

end Position

/-- A range of bytes: `start` is inside, `stop` is not. -/
structure Span where
  start : Nat
  stop : Nat
  deriving DecidableEq, Repr

namespace Span

instance : Inhabited Span := ⟨⟨0, 0⟩⟩

/-- The span before the byte at `offset`, of no bytes. -/
def empty (offset : Nat) : Span := ⟨offset, offset⟩

def isEmpty (s : Span) : Bool := s.start == s.stop

/-- The number of values of a 32-bit word; offsets are such words. -/
def wordCount : Nat := 0x100000000

/-- The number of bytes covered, a 32-bit word too. It wraps for a span that stops before it
starts. -/
def length (s : Span) : Nat := (s.stop + wordCount - s.start) % wordCount

theorem length_eq_sub {s : Span} (h : s.start ≤ s.stop) (hs : s.stop < wordCount) :
    s.length = s.stop - s.start := by
  unfold length wordCount at *
  omega

end Span

/-- Where something stands in a text. -/
structure Location where
  position : Position
  span : Span
  deriving DecidableEq, Repr, Inhabited

end SchemaLang
