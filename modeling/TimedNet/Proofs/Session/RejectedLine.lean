/-
  TimedNet.Proofs.Session.RejectedLine

  A line that is rejected has no effect on the others. Its error stands on the line itself, and
  what it leaves behind is a store that is like the one before; so without it the same is said
  about all other lines (`diagnostics_of_rejected_line`), at the same places, as a blank line
  takes as much room.
-/
import TimedNet.Proofs.Session.Alike
import TimedNet.Proofs.Session.Rows

namespace TimedNet

-- ============================================================================
-- Lines without one of them
-- ============================================================================

/-- At most one line, with an error, leaves a store that is like the one before. -/
theorem Store.alike_enterLines_of_error {s : Store} {check : BoundsCheck} {ls : List Line}
    (hone : ls.length ≤ 1) (hlexical : ∀ l ∈ ls, Lexical true (l.words.map Word.shape))
    {d : Diagnostic} (hd : d ∈ (s.enterLines check ls).1) (herror : d.isError = true)
    (hsigned : d.code ≠ .signedRange) (hunsigned : d.code ≠ .unsignedRange) :
    s.Alike (s.enterLines check ls).2 := by
  match ls, hone with
  | [], _ => exact absurd hd (by simp [enterLines])
  | [l], _ =>
    rw [enterLines, enterLines, List.append_nil] at hd
    exact alike_of_error (hlexical l List.mem_cons_self) hd herror hsigned hunsigned

/-- **Lines.** Where one line among others stands on a row of its own and is rejected, the others
are told the same without it. -/
theorem linesSay_of_rejected {check : BoundsCheck} {first : Line} {upper middle lower : List Line}
    {row : Nat} (hupper : ∀ l ∈ first :: upper, l.StandsOn (· < row))
    (hmiddle : ∀ l ∈ middle, l.StandsOn (· = row)) (hlower : ∀ l ∈ lower, l.StandsOn (row < ·))
    (hone : middle.length ≤ 1) (hlexical : ∀ l ∈ middle, Lexical true (l.words.map Word.shape))
    (herror : ∃ d ∈ linesSay check first (upper ++ (middle ++ lower)), d.span.start.line = row ∧
      d.isError = true ∧ d.code ≠ .signedRange ∧ d.code ≠ .unsignedRange) :
    linesSay check first (upper ++ lower) =
      (linesSay check first (upper ++ (middle ++ lower))).filter
        fun d => d.span.start.line ≠ row := by
  obtain ⟨hfirst, hupper⟩ := List.forall_mem_cons.mp hupper
  obtain ⟨d, hd, hrow, herr, hsigned, hunsigned⟩ := herror
  unfold linesSay at hd ⊢
  cases houtcome : (Header.opening.read first.words).outcome first.stop with
  | error f =>
    simp only [houtcome] at hd
    have hlt := row_of_header hfirst houtcome
    rw [← List.mem_singleton.mp hd] at hlt
    exact absurd hrow (Nat.ne_of_lt hlt)
  | ok result =>
    simp only [houtcome, Store.enterLines_append] at hd ⊢
    let s := (Store.empty.enterLines check upper).2
    have hs : s.Reachable := Store.Reachable.empty.enterLines check upper
    have habove : ∀ e ∈ (Store.empty.enterLines check upper).1, e.span.start.line < row :=
      Store.empty.row_of_enterLines check hupper
    have hon : ∀ e ∈ (s.enterLines check middle).1, e.span.start.line = row :=
      s.row_of_enterLines check hmiddle
    have hbelow : ∀ e ∈ ((s.enterLines check middle).2.enterLines check lower).1,
        row < e.span.start.line := Store.row_of_enterLines _ check hlower
    have hmem : d ∈ (s.enterLines check middle).1 := mem_on_of_row habove hbelow hd hrow
    have halike : s.Alike (s.enterLines check middle).2 :=
      Store.alike_enterLines_of_error hone hlexical hmem herr hsigned hunsigned
    have hsame : (s.enterLines check lower).1 =
        ((s.enterLines check middle).2.enterLines check lower).1 :=
      halike.enterLines hs check lower
    show _ ++ (s.enterLines check lower).1 = _
    rw [hsame]
    exact (filter_row_ne habove hon hbelow).symm

-- ============================================================================
-- Texts
-- ============================================================================

theorem lexical_linesAbove (cs : List Char) :
    ∀ l ∈ linesAbove cs, Lexical true (l.words.map Word.shape) := by
  apply lexical_endedLines
  exact lexical_wordsOf cs

/-- Where a line is does not matter for its tokens. -/
theorem map_shape_below (n : Nat) (ws : List Word) :
    (ws.map (Word.below n)).map Word.shape = ws.map Word.shape := by
  rw [List.map_map]
  rfl

/-- The lines of a text with a line between two newlines. -/
theorem linesOf_between {cs : List Char} (hcs : '\n' ∉ cs) (as bs : List Char) :
    linesOf (as ++ '\n' :: (cs ++ '\n' :: bs)) =
      linesAbove as ++
        ((linesAbove cs).map (Line.below ((Text.bytes as).count Text.newline + 1)) ++
          ((linesOf bs).map (Line.below 1)).map
            (Line.below ((Text.bytes as).count Text.newline + 1))) := by
  rw [linesOf_newline, linesOf_newline, Text.count_newline_eq_zero hcs, List.map_append]

/-- The line between stands on the row behind the upper text. -/
theorem standsOn_between {cs : List Char} (hcs : '\n' ∉ cs) (row : Nat) :
    ∀ l ∈ (linesAbove cs).map (Line.below row), l.StandsOn (· = row) := by
  intro l hl
  obtain ⟨l', hl', rfl⟩ := List.mem_map.mp hl
  have htop : l'.StandsOn (· ≤ 0) := by
    rw [← Text.count_newline_eq_zero hcs]
    exact standsOn_linesAbove cs l' hl'
  refine Line.standsOn_below htop fun r hr => ?_
  show row + r = row
  omega

/-- The lines of the lower text stand behind that row. -/
theorem standsOn_behind (bs : List Char) (row : Nat) :
    ∀ l ∈ ((linesOf bs).map (Line.below 1)).map (Line.below row), l.StandsOn (row < ·) := by
  intro l hl
  obtain ⟨l', hl', rfl⟩ := List.mem_map.mp hl
  obtain ⟨l'', -, rfl⟩ := List.mem_map.mp hl'
  have hany : l''.StandsOn (0 ≤ ·) := fun w _ => Nat.zero_le w.span.start.line
  have hsecond : (Line.below 1 l'').StandsOn (1 ≤ ·) :=
    Line.standsOn_below hany fun r _ => Nat.le_add_right 1 r
  refine Line.standsOn_below hsecond fun r hr => ?_
  show row < row + r
  omega

/-- **A rejected line.** If there is an error on the line between two newlines, and not for a
numeral out of range, what is said about all other lines is what is said about the text in which
it is blank. -/
theorem diagnostics_of_rejected_line {above line below : String} {options : Options}
    (hlimit : options.maxErrors = none) (hline : '\n' ∉ line.toList)
    (habove : ∃ t ∈ Token.scan above, t.kind ≠ .endOfLine)
    (herror : ∃ d ∈ (parse (above ++ "\n" ++ line ++ "\n" ++ below) options).diagnostics,
      d.span.start.line = (LineIndex.ofText above).lineCount ∧ d.isError = true ∧
        d.code ≠ .signedRange ∧ d.code ≠ .unsignedRange) :
    (parse (above ++ "\n\n" ++ below) options).diagnostics =
      (parse (above ++ "\n" ++ line ++ "\n" ++ below) options).diagnostics.filter
        fun d => d.span.start.line ≠ (LineIndex.ofText above).lineCount := by
  obtain ⟨first, upper, hfirst⟩ := List.exists_cons_of_ne_nil (linesAbove_ne_nil habove)
  have htext : (above ++ "\n" ++ line ++ "\n" ++ below).toList =
      above.toList ++ '\n' :: (line.toList ++ '\n' :: below.toList) := by
    simp [String.toList_append]
  have hblank : (above ++ "\n\n" ++ below).toList =
      above.toList ++ '\n' :: ([] ++ '\n' :: below.toList) := by
    simp [String.toList_append]
  have hlines := linesOf_between hline above.toList below.toList
  have hothers := @linesOf_between [] List.not_mem_nil above.toList below.toList
  rw [← htext, hfirst, List.cons_append] at hlines
  rw [← hblank, hfirst, List.cons_append, linesAbove_nil, List.map_nil, List.nil_append] at hothers
  rw [lineCount_ofText, diagnostics_parse hlimit hlines] at herror ⊢
  rw [diagnostics_parse hlimit hothers]
  apply linesSay_of_rejected
  · intro l hl w hw
    exact Nat.lt_succ_of_le (standsOn_linesAbove above.toList l (hfirst ▸ hl) w hw)
  · exact standsOn_between hline _
  · exact standsOn_behind below.toList _
  · rw [List.length_map]
    exact length_endedLines_le hline _
  · intro l hl
    obtain ⟨l', hl', rfl⟩ := List.mem_map.mp hl
    rw [Line.below, map_shape_below]
    exact lexical_linesAbove line.toList l' hl'
  · exact herror

/-- A text that goes on behind a line. -/
def aboveSample : String := "# a network\nsystem:s\nprocess:P"

/-- An attribute list that is not closed. -/
def openSample : String := "event:e\x7bk:v"

/-- The name of the rejected event is free, that of the process is not. -/
def belowSample : String := "event:e\nsync:P@e\nprocess:P\n"

theorem diagnostics_of_rejected_line_openSample :
    '\n' ∉ openSample.toList ∧ (LineIndex.ofText aboveSample).lineCount = 3 ∧
      (parse (aboveSample ++ "\n" ++ openSample ++ "\n" ++ belowSample) {}).errorCount = 2 ∧
      (parse (aboveSample ++ "\n\n" ++ belowSample) {}).diagnostics =
        (parse (aboveSample ++ "\n" ++ openSample ++ "\n" ++ belowSample) {}).diagnostics.filter
          fun d => d.span.start.line ≠ (LineIndex.ofText aboveSample).lineCount := by
  have hline : '\n' ∉ openSample.toList := by decide +kernel
  have habove : ∃ t ∈ Token.scan aboveSample, t.kind ≠ .endOfLine := by decide +kernel
  have herror : ∃ d ∈ (parse (aboveSample ++ "\n" ++ openSample ++ "\n" ++ belowSample)
      {}).diagnostics, d.span.start.line = (LineIndex.ofText aboveSample).lineCount ∧
        d.isError = true ∧ d.code ≠ .signedRange ∧ d.code ≠ .unsignedRange := by decide +kernel
  refine ⟨hline, by decide +kernel, by decide +kernel, ?_⟩
  exact diagnostics_of_rejected_line rfl hline habove herror

end TimedNet
