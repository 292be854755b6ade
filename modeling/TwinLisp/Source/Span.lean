/-!
Places in source text. A `Span` covers the bytes from `start` up to `stop` and names the line and
column of its first character; line 0 means that no place is known, column 0 that only the line is.

* `Span.merge`: the smallest span that covers two spans (`merge_start_le`, `le_merge_stop`).
* `Located`: a fault together with its place; `Located.within` fills in a missing place and never
  moves a known one.
-/

namespace TwinLisp

/-- Bytes `start` to `stop` of a source; `line` and `column` count from one. -/
structure Span where
  start : Nat
  stop : Nat
  line : Nat
  column : Nat
  deriving DecidableEq, Repr, Inhabited

namespace Span

/-- The place of a fault that was raised without one. -/
def unknown : Span := ⟨0, 0, 0, 0⟩

/-- A place of which only the line is known. -/
def ofLine (line : Nat) : Span := ⟨0, 0, line, 0⟩

/-- Lexicographic order of line and column. -/
def startsNoLater (a b : Span) : Bool :=
  a.line < b.line || (a.line == b.line && a.column ≤ b.column)

/-- The smallest span that covers both; its line and column are those of the earlier one. -/
def merge (a b : Span) : Span :=
  let first := if a.startsNoLater b then a else b
  ⟨min a.start b.start, max a.stop b.stop, first.line, first.column⟩

/-- `LINE:COLUMN`, or `line LINE` where the column is not known. -/
def text (s : Span) : String :=
  if s.column = 0 then "line " ++ toString s.line
  else toString s.line ++ ":" ++ toString s.column

theorem merge_start_le (a b : Span) : (a.merge b).start ≤ a.start ∧ (a.merge b).start ≤ b.start :=
  ⟨Nat.min_le_left _ _, Nat.min_le_right _ _⟩

theorem le_merge_stop (a b : Span) : a.stop ≤ (a.merge b).stop ∧ b.stop ≤ (a.merge b).stop :=
  ⟨Nat.le_max_left _ _, Nat.le_max_right _ _⟩

end Span

/-! ## Located faults -/

/-- A fault and the place it is reported at. -/
structure Located (κ : Type) where
  cause : κ
  span : Span

namespace Located

/-- The fault at `place`, unless it already has a line. -/
def within {κ : Type} (e : Located κ) (place : Span) : Located κ :=
  if e.span.line = 0 then ⟨e.cause, place⟩ else e

theorem within_of_line {κ : Type} {e : Located κ} (h : e.span.line ≠ 0) (place : Span) :
    e.within place = e := by
  simp [within, h]

@[simp] theorem within_cause {κ : Type} (e : Located κ) (place : Span) :
    (e.within place).cause = e.cause := by
  unfold within
  split <;> rfl

theorem span_within {κ : Type} (e : Located κ) (place : Span) :
    (e.within place).span = if e.span.line = 0 then place else e.span := by
  unfold within
  split <;> rfl

end Located

end TwinLisp
