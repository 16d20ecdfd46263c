/-
  TimedNet.Proofs.Session.LineTokens

  The tokens that the lines of a text stand for. A line is a run of tokens that begins where no
  attribute list is open (`exists_cut`), and has all tokens of its row but for the end of the line
  (`filter_row_wordsOf`). So the span from one word of a line to another slices back to a text
  with these words, and those between them (`IsCut.window`).
-/
import TimedNet.Proofs.Session.OneLine
import TimedNet.Proofs.Token.Windows

namespace TimedNet

open Token (scan Mode)

-- ============================================================================
-- Rows
-- ============================================================================

/-- What stands behind the end of a line stands below it. -/
theorem InOrder.row_lt {ws vs : List Word} {e : Word} (h : InOrder (ws ++ e :: vs))
    (he : e.span.stop = ⟨e.span.start.line + 1, 0⟩) :
    ∀ v ∈ vs, e.span.start.line < v.span.start.line := by
  intro v hv
  obtain ⟨-, hbehind, -⟩ := List.pairwise_append.mp h.pairwise
  have hle := Position.line_le_of_le ((List.pairwise_cons.mp hbehind).1 v hv)
  rw [he] at hle
  exact hle

/-- Whether a word begins on a row and does not end it. -/
def Word.isInRow (row : Nat) (w : Word) : Bool :=
  decide (w.span.start.line = row ∧ w.kind ≠ .endOfLine)

theorem Word.isInRow_eq_false {row : Nat} {w : Word}
    (h : w.kind ≠ .endOfLine → w.span.start.line ≠ row) : w.isInRow row = false := by
  rw [isInRow, decide_eq_false_iff_not]
  exact fun hrow => h hrow.2 hrow.1

/-- What stands above a line, down to the end of the one before it, is not in its row. -/
theorem InOrder.filter_row_above {front tail : List Word} (h : InOrder (front ++ tail))
    (hplaced : ∀ w ∈ front, w.IsPlaced) (hend : ∀ e ∈ front.getLast?, e.isLineEnd = true)
    {w : Word} (hw : w ∈ tail) : front.filter (Word.isInRow w.span.start.line) = [] := by
  rw [List.filter_eq_nil_iff]
  intro v hv
  rw [Bool.not_eq_true]
  refine Word.isInRow_eq_false fun hkind => Nat.ne_of_lt ?_
  rcases List.eq_nil_or_concat' front with rfl | ⟨init, e, rfl⟩
  · exact absurd hv List.not_mem_nil
  have hlast : e.kind = .endOfLine := beq_iff_eq.mp (hend e List.getLast?_concat)
  have hinit : v ∈ init := by
    refine (List.mem_append.mp hv).resolve_right fun he => hkind ?_
    exact List.mem_singleton.mp he ▸ hlast
  rw [List.append_assoc, List.singleton_append] at h
  exact Nat.lt_of_le_of_lt (h.row_le hinit List.mem_cons_self)
    (h.row_lt ((hplaced e (by simp)).endOfLine hlast) w hw)

/-- What stands below a row, from its end on, is not in it. -/
theorem InOrder.filter_row_below {front rest : List Word} {e : Word}
    (h : InOrder (front ++ e :: rest)) (hplaced : e.IsPlaced) (hend : e.isLineEnd = true) :
    (e :: rest).filter (Word.isInRow e.span.start.line) = [] := by
  have hlast : e.kind = .endOfLine := beq_iff_eq.mp hend
  rw [List.filter_eq_nil_iff]
  intro v hv
  rw [Bool.not_eq_true]
  refine Word.isInRow_eq_false fun hkind => Nat.ne_of_gt ?_
  have hrest : v ∈ rest := (List.mem_cons.mp hv).resolve_left fun he => hkind (he ▸ hlast)
  exact h.row_lt (hplaced.endOfLine hlast) v hrest

/-- What a line that keeps to its row has for words is in that row. -/
theorem Line.IsOneRow.filter_row {l : Line} (h : l.IsOneRow) :
    l.words.filter (Word.isInRow l.row) = l.words := by
  rw [List.filter_eq_self]
  intro w hw
  exact decide_eq_true ⟨h.start w hw, h.kind_ne_endOfLine w hw⟩

/-- **A row.** The words of a line are all that begin on its row, but for the end of the line. -/
theorem filter_row_wordsOf {cs : List Char} {l : Line} (hl : l ∈ linesOf cs) :
    (wordsOf cs).filter (Word.isInRow l.row) = l.words := by
  obtain ⟨front, rest, hwords, -, hrest, hstop, hfront⟩ := exists_split_of_mem hl
  have horder := inOrder_text cs
  have hplaced := isPlaced_wordsOf cs
  rw [hwords] at horder hplaced
  have habove : front.filter (Word.isInRow l.row) = [] := by
    have hmem : l.stop ∈ l.words ++ rest ++ [endOf cs] := by
      rw [hstop]
      cases rest <;> simp
    rw [List.append_assoc] at horder
    exact horder.filter_row_above (fun w hw => hplaced w (List.mem_append_left _ hw)) hfront hmem
  have hbelow : rest.filter (Word.isInRow l.row) = [] := by
    cases rest with
    | nil => rfl
    | cons e rest =>
      have hsplit : front ++ (l.words ++ e :: rest) ++ [endOf cs] =
          front ++ l.words ++ e :: (rest ++ [endOf cs]) := by simp
      rw [hsplit] at horder
      have hnone := horder.filter_row_below (hplaced e (by simp)) (hrest e rfl)
      rw [← List.cons_append, List.filter_append, List.append_eq_nil_iff] at hnone
      have hstop : l.stop = e := hstop
      rw [Line.row, hstop]
      exact hnone.1
  rw [hwords, List.filter_append, List.filter_append, habove,
    (isOneRow_linesOf cs l hl).filter_row, hbelow, List.nil_append, List.append_nil]

-- ============================================================================
-- Runs of tokens
-- ============================================================================

/-- How a line is cut out of the tokens of a text: it begins where no attribute list is open. -/
structure Line.IsCut (source : String) (before ts after : List Token) (l : Line) : Prop where
  tokens : scan source = before ++ (ts ++ after)
  words : ts.map (Token.word (.ofText source)) = l.words
  outside : Mode.through .outside (before.map Token.kind) = .outside

theorem exists_cut {source : String} {l : Line} (hl : l ∈ linesOf source.toList) :
    ∃ before ts after, l.IsCut source before ts after := by
  obtain ⟨front, rest, hwords, -, -, -, hfront⟩ := exists_split_of_mem hl
  obtain ⟨before, more, hscan, rfl, hmore⟩ := List.map_eq_append_iff.mp hwords
  obtain ⟨ts, after, rfl, hts, -⟩ := List.map_eq_append_iff.mp hmore
  refine ⟨before, ts, after, hscan, hts, ?_⟩
  rcases List.eq_nil_or_concat' before with rfl | ⟨init, e, rfl⟩
  · rfl
  · have hend : (e.word (.ofText source)).isLineEnd = true :=
      hfront _ (by rw [List.map_append]; exact List.getLast?_concat)
    have hkind : e.kind = .endOfLine := beq_iff_eq.mp hend
    rw [List.map_append, Mode.through_append]
    show (Mode.through .outside (init.map Token.kind)).after e.kind = .outside
    rw [hkind, Token.after_endOfLine]

theorem Line.IsCut.inOrder {source : String} {before ts after : List Token} {l : Line}
    (h : l.IsCut source before ts after) : InOrder l.words := by
  have hwords : wordsOf source.toList = before.map (Token.word (.ofText source)) ++
      (l.words ++ after.map (Token.word (.ofText source))) := by
    rw [← h.words, ← List.map_append, ← List.map_append, ← h.tokens]
    rfl
  refine (inOrder_text source.toList).sublist ?_
  rw [hwords, List.append_assoc, List.append_assoc]
  exact (List.sublist_append_left _ _).trans (List.sublist_append_right _ _)

/-- The last word of a run stops where the last token does. -/
theorem stop_getLastD_word (i : LineIndex) (t : Token) (ts : List Token) :
    ((ts.map (Token.word i)).getLastD (t.word i)).span.stop =
      i.position (Token.stopOf t.stop ts) := by
  induction ts generalizing t with
  | nil => rfl
  | cons u ts ih => rw [List.map_cons, List.getLastD_cons, ih, Token.stopOf_cons]

/-- **Windows.** From where no attribute list is open, the span from one word of a line to another
slices back to a text that begins with the first of them and has the same words. -/
theorem Line.IsCut.window {source : String} {before ts after : List Token} {l : Line}
    (h : l.IsCut source before ts after) {front mid back : List Word} {w : Word}
    (hsplit : l.words = front ++ (w :: mid ++ back)) (hw : w.kind ≠ .text)
    (hopen : Mode.through .outside (kinds front) = .outside) :
    ∃ text, (⟨w.span.start, (mid.getLastD w).span.stop⟩ : Span).textIn? source = some text ∧
      (scan text).map Token.shape = (w :: mid).map Word.shape ∧ ∃ more, text = w.text ++ more := by
  obtain ⟨us, vs, rfl, rfl, hrest⟩ := List.map_eq_append_iff.mp (h.words.trans hsplit)
  obtain ⟨window, rest, rfl, hwindow, -⟩ := List.map_eq_append_iff.mp hrest
  obtain ⟨t, ts, rfl, rfl, rfl⟩ := List.map_eq_cons_iff.mp hwindow
  have hscan : scan source = before ++ us ++ (t :: ts ++ (rest ++ after)) := by
    rw [h.tokens]
    simp
  have houtside : Mode.through .outside ((before ++ us).map Token.kind) = .outside := by
    rw [kinds, List.map_map] at hopen
    rw [List.map_append, Mode.through_append, h.outside]
    exact hopen
  obtain ⟨text, htext, hshapes, hbegins⟩ := Token.exists_window hscan hw houtside
  refine ⟨text, ?_, ?_, hbegins⟩
  · rw [stop_getLastD_word]
    exact htext
  · rw [hshapes, ← List.map_cons, List.map_map]
    rfl

end TimedNet
