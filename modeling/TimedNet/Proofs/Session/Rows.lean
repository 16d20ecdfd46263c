/-
  TimedNet.Proofs.Session.Rows

  Rows of a text. All words of a line stand on one row, and so does whatever is said about it; the
  lines of a text stand on rows of their own, one below the other (`onRows_linesOf`). So what is
  said about some lines can be told from the rest by the rows alone.
-/
import TimedNet.Proofs.Session.ByLine
import TimedNet.Proofs.Session.Places

namespace TimedNet

-- ============================================================================
-- Rows of diagnostics
-- ============================================================================

/-- The words of a line and the one that ends it begin on certain rows of the text. -/
def Line.StandsOn (l : Line) (rows : Nat → Prop) : Prop :=
  ∀ w ∈ l.stop :: l.words, rows w.span.start.line

variable {rows : Nat → Prop}

/-- What is said about lines stands where they do. -/
theorem Store.row_of_enterLines (s : Store) (check : BoundsCheck) {ls : List Line}
    (hls : ∀ l ∈ ls, l.StandsOn rows) :
    ∀ d ∈ (s.enterLines check ls).1, rows d.span.start.line := by
  induction ls generalizing s with
  | nil => exact fun d hd => absurd hd (by simp [enterLines])
  | cons l ls ih =>
    obtain ⟨hl, hls⟩ := List.forall_mem_cons.mp hls
    intro d hd
    rcases List.mem_append.mp hd with hd | hd
    · obtain ⟨w, hw, hstart⟩ := start_of_enter hd
      rw [hstart]
      exact hl w hw
    · exact ih _ hls d hd

/-- The fault of a line that has to declare the network stands where the line does. -/
theorem row_of_header {first : Line} (hfirst : first.StandsOn rows) {f : Fault}
    (h : (Header.opening.read first.words).outcome first.stop = .error f) :
    rows f.diagnostic.span.start.line := by
  rw [f.start_diagnostic, Reading.found_of_outcome h]
  exact hfirst _ (Header.opening.stop_mem first.stop first.words)

section Rows

variable {above on below : List Diagnostic} {row : Nat}
  (habove : ∀ d ∈ above, d.span.start.line < row) (hon : ∀ d ∈ on, d.span.start.line = row)
  (hbelow : ∀ d ∈ below, row < d.span.start.line)

include habove hbelow

/-- What stands on a row is not said about the lines above and below. -/
theorem mem_on_of_row {d : Diagnostic} (hd : d ∈ above ++ (on ++ below))
    (hrow : d.span.start.line = row) : d ∈ on := by
  rcases List.mem_append.mp hd with hd | hd
  · exact absurd hrow (Nat.ne_of_lt (habove d hd))
  · rcases List.mem_append.mp hd with hd | hd
    · exact hd
    · exact absurd hrow (Nat.ne_of_gt (hbelow d hd))

include hon

/-- Without what stands on a row, what is said above and below it is left. -/
theorem filter_row_ne :
    (above ++ (on ++ below)).filter (fun d => d.span.start.line ≠ row) = above ++ below := by
  have hkept : ∀ ds : List Diagnostic, (∀ d ∈ ds, d.span.start.line ≠ row) →
      ds.filter (fun d => d.span.start.line ≠ row) = ds := by
    intro ds hds
    exact List.filter_eq_self.mpr fun d hd => decide_eq_true (hds d hd)
  have hdropped : on.filter (fun d => d.span.start.line ≠ row) = [] :=
    List.filter_eq_nil_iff.mpr fun d hd => by simp [hon d hd]
  rw [List.filter_append, List.filter_append, hdropped, List.nil_append,
    hkept above fun d hd => Nat.ne_of_lt (habove d hd),
    hkept below fun d hd => Nat.ne_of_gt (hbelow d hd)]

/-- What stands on a row. -/
theorem filter_row_eq :
    (above ++ (on ++ below)).filter (fun d => d.span.start.line = row) = on := by
  have hdropped : ∀ ds : List Diagnostic, (∀ d ∈ ds, d.span.start.line ≠ row) →
      ds.filter (fun d => d.span.start.line = row) = [] := by
    intro ds hds
    exact List.filter_eq_nil_iff.mpr fun d hd => by simp [hds d hd]
  have hkept : on.filter (fun d => d.span.start.line = row) = on :=
    List.filter_eq_self.mpr fun d hd => decide_eq_true (hon d hd)
  rw [List.filter_append, List.filter_append, hkept,
    hdropped above fun d hd => Nat.ne_of_lt (habove d hd),
    hdropped below fun d hd => Nat.ne_of_gt (hbelow d hd), List.nil_append, List.append_nil]

/-- What is said down to a row. -/
theorem filter_row_le :
    (above ++ (on ++ below)).filter (fun d => d.span.start.line ≤ row) = above ++ on := by
  have hdropped : below.filter (fun d => d.span.start.line ≤ row) = [] :=
    List.filter_eq_nil_iff.mpr fun d hd => by simp [hbelow d hd]
  have hkept : (above ++ on).filter (fun d => d.span.start.line ≤ row) = above ++ on := by
    refine List.filter_eq_self.mpr (List.forall_mem_append.mpr ⟨fun d hd => ?_, fun d hd => ?_⟩)
    · exact decide_eq_true (Nat.le_of_lt (habove d hd))
    · exact decide_eq_true (Nat.le_of_eq (hon d hd))
  rw [← List.append_assoc, List.filter_append, hdropped, List.append_nil, hkept]

end Rows

-- ============================================================================
-- Lines of a text
-- ============================================================================

theorem Line.standsOn_below {l : Line} {n : Nat} (h : l.StandsOn rows) {rows' : Nat → Prop}
    (hrows : ∀ row, rows row → rows' (n + row)) : (l.below n).StandsOn rows' := by
  intro w hw
  have hall : w ∈ (l.stop :: l.words).map (Word.below n) := hw
  obtain ⟨v, hv, rfl⟩ := List.mem_map.mp hall
  exact hrows _ (h v hv)

/-- A text without newlines is at most one line. -/
theorem length_endedLines_le {cs : List Char} (hcs : '\n' ∉ cs) (close : Word) :
    (endedLines close [] (wordsOf cs)).length ≤ 1 := by
  have hfree : ∀ w ∈ wordsOf cs, w.isLineEnd = false := by
    intro w hw
    obtain ⟨t, ht, rfl⟩ := List.mem_map.mp hw
    have hkind := Token.kind_ne_endOfLine hcs ht
    simpa [Word.isLineEnd, Token.word] using hkind
  rw [endedLines_of_inLine hfree, List.nil_append, lineOf]
  split <;> simp

theorem linesAbove_ne_nil {cs : List Char}
    (h : ∃ t ∈ Token.scanFrom .outside 0 cs, t.kind ≠ .endOfLine) : linesAbove cs ≠ [] := by
  obtain ⟨t, ht, hkind⟩ := h
  apply endedLines_ne_nil
  refine Or.inr ⟨_, List.mem_map_of_mem ht, ?_⟩
  simpa [Word.isLineEnd, Token.word] using hkind

theorem linesAbove_nil : linesAbove [] = [] := by
  rw [linesAbove, wordsOf, Token.scanFrom]
  rfl

-- ============================================================================
-- Rows of lines
-- ============================================================================

/-- The row of a line is that of the word that ends it. -/
def Line.row (l : Line) : Nat := l.stop.span.start.line

/-- Lines that stand on one row each, one line below the other. -/
structure OnRows (ls : List Line) : Prop where
  standsOn : ∀ l ∈ ls, l.StandsOn (· = l.row)
  pairwise : ls.Pairwise fun l k => l.row < k.row

namespace OnRows

variable {ls ks : List Line}

/-- At most one line on the first row. -/
theorem of_length_le (hlen : ls.length ≤ 1) (hls : ∀ l ∈ ls, l.StandsOn (· ≤ 0)) : OnRows ls := by
  match ls, hlen with
  | [], _ => exact ⟨by simp, .nil⟩
  | [l], _ =>
    refine ⟨fun k hk w hw => ?_, List.pairwise_singleton _ l⟩
    have hrow : k.row ≤ 0 := hls k hk k.stop List.mem_cons_self
    have hword := hls k hk w hw
    omega

theorem append (hls : OnRows ls) (hks : OnRows ks) (h : ∀ l ∈ ls, ∀ k ∈ ks, l.row < k.row) :
    OnRows (ls ++ ks) :=
  ⟨List.forall_mem_append.mpr ⟨hls.standsOn, hks.standsOn⟩,
    List.pairwise_append.mpr ⟨hls.pairwise, hks.pairwise, h⟩⟩

theorem of_cons {l : Line} (h : OnRows (l :: ls)) : OnRows ls :=
  ⟨(List.forall_mem_cons.mp h.standsOn).2, (List.pairwise_cons.mp h.pairwise).2⟩

/-- Lines that move down move on together. -/
theorem below (h : OnRows ls) (n : Nat) : OnRows (ls.map (Line.below n)) := by
  constructor
  · intro k hk
    obtain ⟨l, hl, rfl⟩ := List.mem_map.mp hk
    exact Line.standsOn_below (h.standsOn l hl) fun row hrow => congrArg (n + ·) hrow
  · refine List.pairwise_map.mpr (h.pairwise.imp fun {l k} hlk => ?_)
    exact Nat.add_lt_add_left hlk n

/-- What is said about one of the lines stands below what is said about those before it and above
what is said about those behind it. -/
theorem split {upper lower : List Line} {l : Line} (h : OnRows (upper ++ l :: lower)) :
    (∀ k ∈ upper, k.StandsOn (· < l.row)) ∧ l.StandsOn (· = l.row) ∧
      ∀ k ∈ lower, k.StandsOn (l.row < ·) := by
  obtain ⟨-, hbehind, hbefore⟩ := List.pairwise_append.mp h.pairwise
  refine ⟨fun k hk w hw => ?_, h.standsOn l (by simp), fun k hk w hw => ?_⟩
  · rw [h.standsOn k (by simp [hk]) w hw]
    exact hbefore k hk l List.mem_cons_self
  · rw [h.standsOn k (by simp [hk]) w hw]
    exact (List.pairwise_cons.mp hbehind).1 k hk

/-- What is said about lines is said about those before one of them, about that one, and about those
behind it; each of the three stands on rows of its own. -/
theorem said_around {upper lower : List Line} {l : Line} (h : OnRows (upper ++ l :: lower))
    (s : Store) (check : BoundsCheck) :
    let t := (s.enterLines check upper).2
    let on := (t.enter check l.stop l.words).diagnostics
    ∃ below, (s.enterLines check (upper ++ l :: lower)).1 =
        (s.enterLines check upper).1 ++ (on ++ below) ∧
      (∀ d ∈ (s.enterLines check upper).1, d.span.start.line < l.row) ∧
      (∀ d ∈ on, d.span.start.line = l.row) ∧ ∀ d ∈ below, l.row < d.span.start.line := by
  intro t on
  obtain ⟨hupper, hl, hlower⟩ := h.split
  refine ⟨_, by rw [s.enterLines_append]; rfl, s.row_of_enterLines check hupper, fun d hd => ?_,
    Store.row_of_enterLines _ check hlower⟩
  refine t.row_of_enterLines check (List.forall_mem_singleton.mpr hl) d ?_
  rw [Store.enterLines]
  exact List.mem_append_left _ hd

/-- What is said about one of the lines can be told by its row. -/
theorem said_on {upper lower : List Line} {l : Line} (h : OnRows (upper ++ l :: lower))
    (s : Store) (check : BoundsCheck) :
    (s.enterLines check (upper ++ l :: lower)).1.filter (fun d => d.span.start.line = l.row) =
      ((s.enterLines check upper).2.enter check l.stop l.words).diagnostics := by
  obtain ⟨below, hall, habove, hon, hbelow⟩ := h.said_around s check
  rw [hall, filter_row_eq habove hon hbelow]

/-- What is said down to one of the lines can be told by its row, and so can what is said above it. -/
theorem said_down_to {upper lower : List Line} {l : Line} (h : OnRows (upper ++ l :: lower))
    (s : Store) (check : BoundsCheck) :
    let said := (s.enterLines check (upper ++ [l])).1
    let all := (s.enterLines check (upper ++ l :: lower)).1
    said <+: all ∧ said = all.filter (fun d => d.span.start.line ≤ l.row) ∧
      said.filter (fun d => d.span.start.line ≠ l.row) = (s.enterLines check upper).1 := by
  intro said all
  obtain ⟨below, hall, habove, hon, hbelow⟩ := h.said_around s check
  have hsaid : said = (s.enterLines check upper).1 ++
      ((s.enterLines check upper).2.enter check l.stop l.words).diagnostics := by
    show (s.enterLines check (upper ++ [l])).1 = _
    rw [s.enterLines_append, Store.enterLines, Store.enterLines, List.append_nil]
  rw [show all = _ from hall, hsaid, filter_row_le habove hon hbelow]
  refine ⟨?_, rfl, ?_⟩
  · rw [← List.append_assoc]
    exact List.prefix_append _ _
  · have hnone : ∀ d ∈ ([] : List Diagnostic), l.row < d.span.start.line := by simp
    have hone := filter_row_ne habove hon hnone
    rwa [List.append_nil, List.append_nil] at hone

end OnRows

/-- The lines of a text, and their ends, are on its own rows. -/
theorem standsOn_endedLines {cs : List Char} {close : Word}
    (hclose : close.span.start.line ≤ (Text.bytes cs).count Text.newline) :
    ∀ l ∈ endedLines close [] (wordsOf cs),
      l.StandsOn (· ≤ (Text.bytes cs).count Text.newline) :=
  forall_endedLines
    (P := fun w => w.span.start.line ≤ (Text.bytes cs).count Text.newline) hclose
    fun _ hw => line_le_of_mem_wordsOf hw

theorem standsOn_linesAbove (cs : List Char) :
    ∀ l ∈ linesAbove cs, l.StandsOn (· ≤ (Text.bytes cs).count Text.newline) :=
  standsOn_endedLines (LineIndex.line_position_le _ _)

/-- **The lines of a text** stand on rows of their own, in order. -/
theorem onRows_linesOf (cs : List Char) : OnRows (linesOf cs) := by
  by_cases hcs : '\n' ∈ cs
  · obtain ⟨as, bs, rfl, has⟩ := List.eq_append_cons_of_mem hcs
    have hzero := Text.count_newline_eq_zero has
    have habove : ∀ l ∈ linesAbove as, l.StandsOn (· ≤ 0) := by
      rw [← hzero]
      exact standsOn_linesAbove as
    rw [linesOf_newline, hzero]
    refine OnRows.append ?_ ((onRows_linesOf bs).below 1) fun l hl k hk => ?_
    · exact OnRows.of_length_le (length_endedLines_le has _) habove
    · obtain ⟨k', -, rfl⟩ := List.mem_map.mp hk
      have hfirst : l.row ≤ 0 := habove l hl l.stop List.mem_cons_self
      have hnext : (k'.below 1).row = 1 + k'.row := rfl
      rw [hnext]
      omega
  · have hzero := Text.count_newline_eq_zero hcs
    refine OnRows.of_length_le (length_endedLines_le hcs _) ?_
    rw [← hzero]
    exact standsOn_endedLines (LineIndex.line_position_le _ _)
termination_by cs.length
decreasing_by
  subst_vars
  simp only [List.length_append, List.length_cons]
  omega

end TimedNet
