/-
  TimedNet.Text.Position

  Places in a text and stretches between two of them. Lines and columns are counted from 0 and a
  span ends before its `stop`; in print both are counted from 1, and a span names its last column.
-/

namespace TimedNet

/-! ## Positions -/

/-- A place in a text: a line and a column in bytes, both counted from 0. -/
structure Position where
  line : Nat
  column : Nat
deriving DecidableEq, Inhabited

namespace Position

/-- Positions are ordered by line, then by column. -/
instance : LE Position :=
  ⟨fun p q => p.line < q.line ∨ (p.line = q.line ∧ p.column ≤ q.column)⟩

instance : LT Position :=
  ⟨fun p q => p.line < q.line ∨ (p.line = q.line ∧ p.column < q.column)⟩

instance (p q : Position) : Decidable (p ≤ q) :=
  inferInstanceAs (Decidable (p.line < q.line ∨ (p.line = q.line ∧ p.column ≤ q.column)))

instance (p q : Position) : Decidable (p < q) :=
  inferInstanceAs (Decidable (p.line < q.line ∨ (p.line = q.line ∧ p.column < q.column)))

instance : Ord Position := ⟨fun p q => compareOfLessAndEq p q⟩

instance : Min Position := .leftLeaningOfLE _

instance : Max Position := .leftLeaningOfLE _

theorem le_def (p q : Position) :
    p ≤ q ↔ p.line < q.line ∨ (p.line = q.line ∧ p.column ≤ q.column) := Iff.rfl

theorem lt_def (p q : Position) :
    p < q ↔ p.line < q.line ∨ (p.line = q.line ∧ p.column < q.column) := Iff.rfl

protected theorem le_refl (p : Position) : p ≤ p := Or.inr ⟨rfl, Nat.le_refl _⟩

protected theorem le_trans {p q r : Position} (h : p ≤ q) (h' : q ≤ r) : p ≤ r := by
  rw [le_def] at *
  omega

protected theorem le_antisymm {p q : Position} (h : p ≤ q) (h' : q ≤ p) : p = q := by
  rw [le_def] at h h'
  obtain ⟨hl, hc⟩ : p.line = q.line ∧ p.column = q.column := by omega
  cases p
  cases q
  simp_all

protected theorem le_total (p q : Position) : p ≤ q ∨ q ≤ p := by
  rw [le_def, le_def]
  omega

protected theorem lt_iff_not_le (p q : Position) : p < q ↔ ¬ q ≤ p := by
  rw [le_def, lt_def]
  omega

/-- Any two positions can be compared, so that `min` and `max` have their usual laws. -/
instance : Std.IsLinearOrder Position := by
  apply Std.IsLinearOrder.of_le
  · exact ⟨fun _ _ => Position.le_antisymm⟩
  · exact ⟨Position.le_trans⟩
  · exact ⟨Position.le_total⟩

instance : Std.LawfulOrderLT Position where
  lt_iff p q := by
    have h := Position.le_total p q
    rw [Position.lt_iff_not_le]
    exact ⟨fun hqp => ⟨h.resolve_right hqp, hqp⟩, And.right⟩

/-- A position prints as `LINE.COLUMN`, both counted from 1. -/
def text (p : Position) : String :=
  toString (p.line + 1) ++ "." ++ toString (p.column + 1)

instance : ToString Position := ⟨text⟩

end Position

/-! ## Spans -/

/-- The stretch of text from `start` up to, not including, `stop`. -/
structure Span where
  start : Position
  stop : Position
deriving DecidableEq, Inhabited

namespace Span

/-- The empty span at a position. -/
def point (p : Position) : Span := ⟨p, p⟩

/-- A span is empty when it stops where it starts. -/
def isEmpty (s : Span) : Bool := s.start == s.stop

theorem isEmpty_iff {s : Span} : s.isEmpty = true ↔ s.start = s.stop := beq_iff_eq

/-- The smallest span that covers both. -/
def cover (s t : Span) : Span := ⟨min s.start t.start, max s.stop t.stop⟩

/-- A span prints as its first position, followed by where its last column is: nothing for a span
of at most one column, `-COLUMN` on the same line, `-LINE.COLUMN` on another. The excluded column
counted from 0 is the last column counted from 1. -/
def text (s : Span) : String :=
  if s.isEmpty then s.start.text
  else if s.start.line = s.stop.line then
    if s.start.column + 1 < s.stop.column then s.start.text ++ "-" ++ toString s.stop.column
    else s.start.text
  else s.start.text ++ "-" ++ toString (s.stop.line + 1) ++ "." ++ toString s.stop.column

instance : ToString Span := ⟨text⟩

end Span

end TimedNet
