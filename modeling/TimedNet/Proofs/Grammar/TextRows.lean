/-
  TimedNet.Proofs.Grammar.TextRows

  A text as the rows of characters between its newlines. Each row is scanned by itself, so the lines
  of a text are the rows with words on them, each as far down as it stands (`words_linesOf_ofRows`).
-/
import TimedNet.Proofs.Grammar.LineEnds

namespace TimedNet

-- ============================================================================
-- Rows of a text
-- ============================================================================

namespace Text

/-- The rows of a text, without the newlines between them. -/
def rows (source : String) : List (List Char) := source.toList.splitOn '\n'

/-- The text of rows, with newlines between them. -/
def ofRows (rs : List (List Char)) : String := String.ofList (['\n'].intercalate rs)

@[simp] theorem toList_ofRows (rs : List (List Char)) :
    (ofRows rs).toList = ['\n'].intercalate rs := String.toList_ofList

/-- A text is made of its rows. -/
theorem ofRows_rows (source : String) : ofRows (rows source) = source := by
  rw [ofRows, rows, List.intercalate_splitOn, String.ofList_toList]

theorem newline_notMem_of_mem_splitOn {cs : List Char} :
    ∀ r ∈ cs.splitOn '\n', '\n' ∉ r := by
  induction cs with
  | nil => simp
  | cons c cs ih =>
    rw [List.splitOn_cons_eq_if_modifyHead]
    split
    · exact List.forall_mem_cons.mpr ⟨by simp, ih⟩
    · next hc =>
      have hne : '\n' ≠ c := fun h => hc (by simp [← h])
      cases hsplit : cs.splitOn '\n' with
      | nil => simp
      | cons row rows =>
        rw [hsplit] at ih
        obtain ⟨hrow, hrows⟩ := List.forall_mem_cons.mp ih
        exact List.forall_mem_cons.mpr ⟨List.not_mem_cons_of_ne_of_not_mem hne hrow, hrows⟩

theorem newline_notMem_of_mem_rows {source : String} {r : List Char} (h : r ∈ rows source) :
    '\n' ∉ r := newline_notMem_of_mem_splitOn r h

end Text

-- ============================================================================
-- Rows of words
-- ============================================================================

/-- The words of rows that stand one below the other, as far as there are any on a row. -/
def stacked (rows : List (List Word)) : List (List Word) :=
  (rows.mapIdx fun k row => row.map (Word.below k)).filter fun row => !row.isEmpty

@[simp] theorem stacked_nil : stacked [] = [] := rfl

theorem Word.below_below (m n : Nat) (w : Word) : (w.below m).below n = w.below (m + n) := by
  have hplace : ∀ p : Position, (p.below m).below n = p.below (m + n) := by
    intro p
    simp only [Position.below, Position.mk.injEq, and_true]
    omega
  simp only [Word.below, hplace]

theorem Word.below_zero (w : Word) : w.below 0 = w := by
  have hplace : ∀ p : Position, p.below 0 = p := by
    intro p
    simp only [Position.below, Nat.zero_add]
  simp only [Word.below, hplace]

theorem Word.map_below_below (m n : Nat) (ws : List Word) :
    (ws.map (Word.below m)).map (Word.below n) = ws.map (Word.below (m + n)) := by
  rw [List.map_map]
  exact List.map_congr_left fun w _ => w.below_below m n

theorem Word.map_below_zero (ws : List Word) : ws.map (Word.below 0) = ws := by
  rw [List.map_congr_left fun w _ => w.below_zero, List.map_id']

theorem exists_mem_stacked {rows : List (List Word)} {row : List Word} (h : row ∈ rows)
    (hne : row ≠ []) : ∃ k, row.map (Word.below k) ∈ stacked rows := by
  obtain ⟨k, hk, rfl⟩ := List.getElem_of_mem h
  refine ⟨k, List.mem_filter.mpr ⟨List.mem_mapIdx.mpr ⟨k, hk, rfl⟩, ?_⟩⟩
  simpa using hne

/-- The rows below the first one move down by one. -/
theorem stacked_cons (row : List Word) (rows : List (List Word)) :
    stacked (row :: rows) =
      (if row = [] then [] else [row]) ++ (stacked rows).map (List.map (Word.below 1)) := by
  have hbelow : (rows.mapIdx fun k row => row.map (Word.below (k + 1))) =
      (rows.mapIdx fun k row => row.map (Word.below k)).map (List.map (Word.below 1)) := by
    rw [List.mapIdx_eq_zipIdx_map, List.mapIdx_eq_zipIdx_map, List.map_map]
    exact List.map_congr_left fun placed _ => (Word.map_below_below placed.2 1 placed.1).symm
  have hempty : ((fun row : List Word => !row.isEmpty) ∘ List.map (Word.below 1)) =
      fun row => !row.isEmpty := by
    funext row
    cases row <;> rfl
  rw [stacked, List.mapIdx_cons, Word.map_below_zero, hbelow, List.filter_cons, List.filter_map, hempty]
  cases row <;> rfl

/-- Rows at the top that are empty move the others down. -/
theorem stacked_append_of_blank {top : List (List Word)} (htop : ∀ row ∈ top, row = [])
    (rows : List (List Word)) :
    stacked (top ++ rows) = (stacked rows).map (List.map (Word.below top.length)) := by
  induction top with
  | nil =>
    rw [List.nil_append, List.length_nil, List.map_congr_left fun ws _ => Word.map_below_zero ws,
      List.map_id']
  | cons row top ih =>
    obtain ⟨rfl, hblank⟩ := List.forall_mem_cons.mp htop
    rw [List.cons_append, stacked_cons, if_pos rfl, List.nil_append, ih hblank, List.map_map]
    exact List.map_congr_left fun ws _ => Word.map_below_below top.length 1 ws

/-- Rows at the bottom that are empty do not matter. -/
theorem stacked_append_of_nil (rows : List (List Word)) {more : List (List Word)}
    (hmore : ∀ row ∈ more, row = []) : stacked (rows ++ more) = stacked rows := by
  have hnone : stacked more = [] := by
    refine List.filter_eq_nil_iff.mpr fun row hrow => ?_
    obtain ⟨k, hk, rfl⟩ := List.mem_mapIdx.mp hrow
    simp [hmore _ (List.getElem_mem hk)]
  induction rows with
  | nil => exact hnone
  | cons row rows ih => rw [List.cons_append, stacked_cons, stacked_cons, ih]

-- ============================================================================
-- Lines of a text
-- ============================================================================

/-- Nothing ends a line within a row. -/
theorem isLineEnd_wordsOf_row {row : List Char} (hrow : '\n' ∉ row) :
    ∀ w ∈ wordsOf row, w.isLineEnd = false := by
  intro w hw
  obtain ⟨t, ht, rfl⟩ := List.mem_map.mp hw
  have hkind := Token.kind_ne_endOfLine hrow ht
  simpa [Word.isLineEnd, Token.word] using hkind

/-- The words of rows, with what ends each of them in between, are cut into the rows. -/
theorem lines_wordsOf_rows {rs : List (List Char)} (hrs : ∀ r ∈ rs, '\n' ∉ r) :
    lines (wordsOf (['\n'].intercalate rs)) = stacked (rs.map wordsOf) := by
  induction rs with
  | nil =>
    rw [wordsOf, List.intercalate_nil, Token.scanFrom]
    rfl
  | cons row rs ih =>
    obtain ⟨hrow, hrs⟩ := List.forall_mem_cons.mp hrs
    have hfree := isLineEnd_wordsOf_row hrow
    rw [List.map_cons, stacked_cons, ← ih hrs]
    by_cases hlast : rs = []
    · subst hlast
      have hnone : lines (wordsOf (['\n'].intercalate [])) = [] := ih (by simp)
      rw [List.intercalate_singleton, hnone, List.map_nil, List.append_nil]
      split
      · next hnil => rw [hnil]; rfl
      · next hne => exact cut_last hne hfree
    · have hzero := Text.count_newline_eq_zero hrow
      have hcut : lines ((wordsOf (['\n'].intercalate rs)).map (Word.below 1)) =
          (lines (wordsOf (['\n'].intercalate rs))).map (List.map (Word.below 1)) :=
        cut_map (Word.below 1) Word.isLineEnd _
      rw [List.intercalate_cons_of_ne_nil hlast, List.append_assoc, List.singleton_append,
        wordsOf_newline, hzero, ← hcut]
      split
      · next hnil =>
        rw [hnil, List.nil_append, List.nil_append]
        exact cut_end rfl _
      · next hne => exact cut_line hne hfree rfl _

/-- **The lines of a text** are the rows with words on them. -/
theorem words_linesOf_ofRows {rs : List (List Char)} (hrs : ∀ r ∈ rs, '\n' ∉ r) :
    (linesOf (Text.ofRows rs).toList).map Line.words = stacked (rs.map wordsOf) := by
  rw [linesOf, map_words_endedLines, Text.toList_ofRows]
  exact lines_wordsOf_rows hrs

theorem words_linesOf (source : String) :
    (linesOf source.toList).map Line.words = stacked ((Text.rows source).map wordsOf) := by
  have hfree : ∀ r ∈ Text.rows source, '\n' ∉ r := fun r hr => Text.newline_notMem_of_mem_rows hr
  have hlines := words_linesOf_ofRows hfree
  rwa [Text.ofRows_rows] at hlines

end TimedNet
