/-
  TimedNet.Proofs.Text.PrintedSpans

  What can be told from the printed form of a span. It is the first position, and then what is shown
  of the end (`Span.Ending`). Numbers and positions end where no digit follows, so these two can be
  told from the printed form of any span (`Span.text_eq_iff`). They tell where the span stops if it
  has a column at all (`Span.stop_of_ending`). A span that has none is printed like the one column
  that it stands before, and nothing else is left open (`Span.text_unambiguous`).
-/
import TimedNet.Proofs.Text.Decimal
import TimedNet.Text.Position

namespace TimedNet

-- ============================================================================
-- Positions
-- ============================================================================

theorem Position.toList_text (p : Position) :
    p.text.toList = Nat.toDigits 10 (p.line + 1) ++ '.' :: Nat.toDigits 10 (p.column + 1) := by
  simp only [text, String.toList_append, Numeral.toList_toString, List.append_assoc]
  rfl

/-- A position ends where no digit follows. -/
theorem Position.text_append_inj {p q : Position} {as bs : List Char}
    (has : ∀ c ∈ as.head?, c.isDigit = false) (hbs : ∀ c ∈ bs.head?, c.isDigit = false)
    (h : p.text.toList ++ as = q.text.toList ++ bs) : p = q ∧ as = bs := by
  obtain ⟨line, column⟩ := p
  obtain ⟨line', column'⟩ := q
  simp only [toList_text, List.append_assoc, List.cons_append] at h
  obtain ⟨hline, h⟩ := Numeral.toDigits_append_inj (by simp) (by simp) h
  obtain ⟨hcolumn, hrest⟩ := Numeral.toDigits_append_inj has hbs (List.cons.inj h).2
  obtain rfl := Nat.succ.inj hline
  obtain rfl := Nat.succ.inj hcolumn
  exact ⟨rfl, hrest⟩

-- ============================================================================
-- Endings
-- ============================================================================

namespace Span

/-- What a span shows of its end: nothing, its last column, or the line of it as well. -/
inductive Ending where
  | hidden
  | column (last : Nat)
  | place (line last : Nat)

namespace Ending

/-- The characters behind the first position. -/
def chars : Ending → List Char
  | hidden => []
  | column last => '-' :: Nat.toDigits 10 last
  | place line last => '-' :: (Nat.toDigits 10 (line + 1) ++ '.' :: Nat.toDigits 10 last)

theorem isDigit_head_chars (e : Ending) : ∀ c ∈ e.chars.head?, c.isDigit = false := by
  cases e <;> rintro c ⟨⟩ <;> rfl

/-- Of a column and a place, only the place has a `.` behind its first number. -/
theorem chars_column_ne_place (last line last' : Nat) :
    (column last).chars ≠ (place line last').chars := by
  intro h
  have hdigits := (List.append_nil (Nat.toDigits 10 last)).trans (List.cons.inj h).2
  have hrest := (Numeral.toDigits_append_inj (by simp) (by simp) hdigits).2
  exact absurd hrest (by simp)

theorem chars_inj {e e' : Ending} (h : e.chars = e'.chars) : e = e' := by
  cases e with
  | hidden =>
    cases e' with
    | hidden => rfl
    | column | place => exact absurd h (by simp [chars])
  | column last =>
    cases e' with
    | hidden => exact absurd h (by simp [chars])
    | column last' => rw [Numeral.toDigits_inj (List.cons.inj h).2]
    | place line' last' => exact absurd h (chars_column_ne_place last line' last')
  | place line last =>
    cases e' with
    | hidden => exact absurd h (by simp [chars])
    | column last' => exact absurd h.symm (chars_column_ne_place last' line last)
    | place line' last' =>
      obtain ⟨hline, h⟩ :=
        Numeral.toDigits_append_inj (by simp) (by simp) (List.cons.inj h).2
      rw [Nat.succ.inj hline, Numeral.toDigits_inj (List.cons.inj h).2]

/-- Where a span stops that has columns, by where it starts and what it shows of its end. -/
def stop (start : Position) : Ending → Position
  | hidden => ⟨start.line, start.column + 1⟩
  | column last => ⟨start.line, last⟩
  | place line last => ⟨line, last⟩

end Ending

/-- What is shown of the end of a span. -/
def ending (s : Span) : Ending :=
  if s.isEmpty then .hidden
  else if s.start.line = s.stop.line then
    if s.start.column + 1 < s.stop.column then .column s.stop.column else .hidden
  else .place s.stop.line s.stop.column

theorem toList_text (s : Span) : s.text.toList = s.start.text.toList ++ s.ending.chars := by
  unfold text ending
  split
  · simp [Ending.chars]
  · split
    · split <;> simp [Ending.chars]
    · simp [Ending.chars]

/-- Two spans print alike exactly if they start at one position and show the same of their ends. -/
theorem text_eq_iff {s t : Span} : s.text = t.text ↔ s.start = t.start ∧ s.ending = t.ending := by
  rw [← String.toList_inj, toList_text, toList_text]
  constructor
  · intro h
    obtain ⟨hstart, hchars⟩ :=
      Position.text_append_inj s.ending.isDigit_head_chars t.ending.isDigit_head_chars h
    exact ⟨hstart, Ending.chars_inj hchars⟩
  · rintro ⟨hstart, hending⟩
    rw [hstart, hending]

-- ============================================================================
-- Ordered spans
-- ============================================================================

theorem start_lt_stop {s : Span} (hs : s.start ≤ s.stop) (h : s.isEmpty = false) :
    s.start < s.stop := by
  refine Std.lt_of_le_of_ne hs fun hsame => ?_
  exact absurd (isEmpty_iff.mpr hsame) (Bool.eq_false_iff.mp h)

/-- A span that is not empty stops where its start and what it shows of its end tell. -/
theorem stop_of_ending {s : Span} (h : s.start < s.stop) : s.ending.stop s.start = s.stop := by
  have hempty : ¬ s.isEmpty = true := by
    intro hempty
    exact absurd (isEmpty_iff.mp hempty) (Std.ne_of_lt h)
  rw [ending, if_neg hempty]
  rw [Position.lt_def] at h
  split
  · next hline =>
    split
    · exact congrArg (Position.mk · s.stop.column) hline
    · next hcolumn =>
      -- a span that has columns and shows no last one has one column
      have hlast : s.start.column + 1 = s.stop.column := by omega
      show (⟨s.start.line, s.start.column + 1⟩ : Position) = s.stop
      rw [hline, hlast]
  · rfl

/-- A span with columns can be told from its printed form. -/
theorem eq_of_text_eq {s t : Span} (hs : s.start < s.stop) (ht : t.start < t.stop)
    (h : s.text = t.text) : s = t := by
  obtain ⟨hstart, hending⟩ := text_eq_iff.mp h
  have hstop : s.stop = t.stop := by
    rw [← stop_of_ending hs, ← stop_of_ending ht, hstart, hending]
  cases s
  cases t
  rw [mk.injEq]
  exact ⟨hstart, hstop⟩

/-- An empty span shows nothing of its end. -/
theorem ending_point (p : Position) : (point p).ending = .hidden :=
  if_pos (isEmpty_iff.mpr rfl)

/-- A span of one column shows nothing of its end. -/
theorem ending_column (p : Position) :
    ending ⟨p, ⟨p.line, p.column + 1⟩⟩ = .hidden := by
  have hcolumn : ¬ p.column + 1 < p.column + 1 := Nat.lt_irrefl _
  rw [ending, if_pos rfl, if_neg hcolumn]
  exact ite_self _

/-- A span that shows nothing of its end has no column or one. -/
theorem cases_of_ending_eq_hidden {s : Span} (hs : s.start ≤ s.stop) (h : s.ending = .hidden) :
    s = point s.start ∨ s = ⟨s.start, ⟨s.start.line, s.start.column + 1⟩⟩ := by
  obtain ⟨start, stop⟩ := s
  by_cases hempty : start = stop
  · exact Or.inl (by rw [point, hempty])
  · have hstop := stop_of_ending (Std.lt_of_le_of_ne hs hempty)
    rw [h] at hstop
    exact Or.inr (congrArg (mk start) hstop.symm)

/-- **Printed spans are unambiguous.** Of spans that do not stop before they start, no two print
alike that have columns; and a span that has none prints like one other span, the one column that
it stands before. -/
theorem text_unambiguous {s t : Span} (hs : s.start ≤ s.stop) (ht : t.start ≤ t.stop) :
    (s.isEmpty = false → t.isEmpty = false → (s.text = t.text ↔ s = t)) ∧
    (s.isEmpty = true →
      (s.text = t.text ↔ t = s ∨ t = ⟨s.start, ⟨s.start.line, s.start.column + 1⟩⟩)) := by
  constructor
  · intro hsempty htempty
    have hscolumns := start_lt_stop hs hsempty
    have htcolumns := start_lt_stop ht htempty
    exact ⟨eq_of_text_eq hscolumns htcolumns, congrArg text⟩
  · intro hempty
    obtain ⟨start, stop⟩ := s
    obtain rfl : start = stop := isEmpty_iff.mp hempty
    rw [text_eq_iff]
    constructor
    · rintro ⟨hstart, hending⟩
      obtain rfl : start = t.start := hstart
      exact cases_of_ending_eq_hidden ht (hending.symm.trans (ending_point t.start))
    · rintro (rfl | rfl)
      · exact ⟨rfl, rfl⟩
      · exact ⟨rfl, (ending_point start).trans (ending_column start).symm⟩

/-- A stretch of one line is not printed like one that goes on to another line, though the columns
are the same; the place before a column is printed like the column. -/
theorem text_unambiguous_sameColumns :
    let line : Span := ⟨⟨0, 2⟩, ⟨0, 7⟩⟩
    let lines : Span := ⟨⟨0, 2⟩, ⟨6, 7⟩⟩
    let place : Span := ⟨⟨1, 4⟩, ⟨1, 4⟩⟩
    let column : Span := ⟨⟨1, 4⟩, ⟨1, 5⟩⟩
    (line.start ≤ line.stop ∧ lines.start ≤ lines.stop ∧ line.text ≠ lines.text) ∧
      place.start ≤ place.stop ∧ column.start ≤ column.stop ∧ place.text = column.text := by
  intro line lines place column
  have hline : line.start ≤ line.stop := by decide
  have hlines : lines.start ≤ lines.stop := by decide
  have hplace : place.start ≤ place.stop := by decide
  have hcolumn : column.start ≤ column.stop := by decide
  refine ⟨⟨hline, hlines, fun halike => ?_⟩, hplace, hcolumn, ?_⟩
  · exact absurd (((text_unambiguous hline hlines).1 rfl rfl).mp halike) (by decide)
  · exact ((text_unambiguous hplace hcolumn).2 rfl).mpr (Or.inr rfl)

/-- The order counts: what stops before it starts, on one line, is printed like one column. -/
example : (⟨⟨0, 5⟩, ⟨0, 2⟩⟩ : Span).text = (⟨⟨0, 5⟩, ⟨0, 6⟩⟩ : Span).text := by decide

end Span

end TimedNet
