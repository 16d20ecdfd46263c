/-
  TimedNet.Proofs.Text.Ranges

  Positions and spans by an index of any kind, whether the starts of its lines make sense or not.
  The position of an offset is on a line that the index has, and counts from a start that is not
  behind the offset (`position_exact`), so nothing is ever taken from less. Positions go up with the
  offsets (`position_mono`); for this reason the spans of ranges that start before they stop are
  closed under all that is made of them.
-/
import TimedNet.Text.LineIndex

namespace TimedNet

namespace LineIndex

-- ============================================================================
-- Positions
-- ============================================================================

/-- By induction on the starts of the lines that follow. -/
theorem exists_start_of_positionFrom (line start : Nat) (starts : List Nat) {offset : Nat}
    (h : start ≤ offset) :
    ∃ k s, (start :: starts)[k]? = some s ∧ s ≤ offset ∧
      positionFrom line start starts offset = ⟨line + k, offset - s⟩ ∧
      ∀ next, (start :: starts)[k + 1]? = some next → offset < next := by
  induction starts generalizing line start with
  | nil => exact ⟨0, start, rfl, h, rfl, by simp⟩
  | cons n starts ih =>
    by_cases hn : n ≤ offset
    · obtain ⟨k, s, hs, hle, hposition, hnext⟩ := ih (line + 1) n hn
      refine ⟨k + 1, s, hs, hle, ?_, hnext⟩
      rw [positionFrom, if_pos hn, hposition, Nat.add_assoc, Nat.add_comm 1 k]
    · refine ⟨0, start, rfl, h, ?_, ?_⟩
      · rw [positionFrom, if_neg hn]
        rfl
      · intro next hnext
        obtain rfl : n = next := by simpa using hnext
        exact Nat.lt_of_not_le hn

/-- **Positions are exact.** An offset, or the end of the text if it is behind that, lies on a line
that the index has: as many bytes behind its start as the column says, and before the start of the
next line. -/
theorem position_exact (i : LineIndex) (offset : Nat) :
    let p := i.position offset
    ∃ start, (0 :: i.starts)[p.line]? = some start ∧ start + p.column = min offset i.size ∧
      ∀ next, (0 :: i.starts)[p.line + 1]? = some next → min offset i.size < next := by
  obtain ⟨k, s, hs, hle, hposition, hnext⟩ :=
    exists_start_of_positionFrom 0 0 i.starts (Nat.zero_le (min offset i.size))
  intro p
  have hp : p = ⟨0 + k, min offset i.size - s⟩ := hposition
  rw [hp, Nat.zero_add]
  exact ⟨s, hs, Nat.add_sub_cancel' hle, hnext⟩

theorem le_line_positionFrom (line start : Nat) (starts : List Nat) (offset : Nat) :
    line ≤ (positionFrom line start starts offset).line := by
  induction starts generalizing line start with
  | nil => exact Nat.le_refl line
  | cons n starts ih =>
    rw [positionFrom]
    split
    · exact Nat.le_trans (Nat.le_succ line) (ih (line + 1) n)
    · exact Nat.le_refl line

theorem positionFrom_mono (line start : Nat) (starts : List Nat) {o o' : Nat} (h : o ≤ o') :
    positionFrom line start starts o ≤ positionFrom line start starts o' := by
  induction starts generalizing line start with
  | nil => exact Or.inr ⟨rfl, Nat.sub_le_sub_right h start⟩
  | cons n starts ih =>
    by_cases hn : n ≤ o
    · rw [positionFrom, if_pos hn, positionFrom, if_pos (Nat.le_trans hn h)]
      exact ih (line + 1) n
    · rw [positionFrom, if_neg hn]
      by_cases hn' : n ≤ o'
      · rw [positionFrom, if_pos hn']
        exact Or.inl (le_line_positionFrom (line + 1) n starts o')
      · rw [positionFrom, if_neg hn']
        exact Or.inr ⟨rfl, Nat.sub_le_sub_right h start⟩

variable (i : LineIndex)

/-- Positions go up with the offsets. -/
theorem position_mono {o o' : Nat} (h : o ≤ o') : i.position o ≤ i.position o' :=
  positionFrom_mono 0 0 i.starts (by omega)

theorem position_min (a b : Nat) : i.position (min a b) = min (i.position a) (i.position b) := by
  rcases Nat.le_total a b with h | h
  · rw [Nat.min_eq_left h, Std.min_eq_if, if_pos (i.position_mono h)]
  · rw [Nat.min_eq_right h, Std.min_eq_if]
    split
    · next hle => exact Position.le_antisymm (i.position_mono h) hle
    · rfl

theorem position_max (a b : Nat) : i.position (max a b) = max (i.position a) (i.position b) := by
  rcases Nat.le_total b a with h | h
  · rw [Nat.max_eq_left h, Std.max_eq_if, if_pos (i.position_mono h)]
  · rw [Nat.max_eq_right h, Std.max_eq_if]
    split
    · next hle => exact Position.le_antisymm hle (i.position_mono h)
    · rfl

-- ============================================================================
-- Ranges
-- ============================================================================

/-- The span of a range of bytes, which starts before it stops. -/
def IsSpan (i : LineIndex) (s : Span) : Prop := ∃ start stop, start ≤ stop ∧ s = i.span start stop

namespace IsSpan

variable {i : LineIndex} {s t : Span}

theorem ordered (h : i.IsSpan s) : s.start ≤ s.stop := by
  obtain ⟨start, stop, hle, rfl⟩ := h
  exact i.position_mono hle

theorem point (h : i.IsSpan s) : i.IsSpan (.point s.start) := by
  obtain ⟨start, stop, hle, rfl⟩ := h
  exact ⟨start, start, Nat.le_refl start, rfl⟩

theorem cover (h : i.IsSpan s) (h' : i.IsSpan t) : i.IsSpan (s.cover t) := by
  obtain ⟨start, stop, hle, rfl⟩ := h
  obtain ⟨start', stop', hle', rfl⟩ := h'
  refine ⟨min start start', max stop stop', by omega, ?_⟩
  simp only [span, Span.cover, i.position_min, i.position_max]

theorem stretch (h : i.IsSpan s) (h' : i.IsSpan t) :
    i.IsSpan ⟨s.start, max s.start t.stop⟩ := by
  obtain ⟨start, stop, hle, rfl⟩ := h
  obtain ⟨start', stop', hle', rfl⟩ := h'
  refine ⟨start, max start stop', by omega, ?_⟩
  simp only [span, i.position_max]

end IsSpan

end LineIndex

end TimedNet
