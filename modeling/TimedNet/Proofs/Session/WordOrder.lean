/-
  TimedNet.Proofs.Session.WordOrder

  The words of a text stand one behind the other (`inOrder_text`). So the words of a line begin and
  end on its row, with the end of the line behind them, and what the line declares, if it is read to
  its end, stands on that row too (`Line.IsOneRow.span`).
-/
import TimedNet.Proofs.Session.Rows
import TimedNet.Proofs.Text.Ranges
import TimedNet.Proofs.Token.Lossless

namespace TimedNet

namespace Position

theorem line_le_of_le {p q : Position} (h : p ≤ q) : p.line ≤ q.line := by
  rw [le_def] at h
  omega

theorem line_max (p q : Position) : (max p q).line = max p.line q.line := by
  rw [Std.max_eq_if]
  split
  · next h =>
    have hle := line_le_of_le h
    omega
  · next h =>
    have hle := line_le_of_le ((Position.le_total q p).resolve_left h)
    omega

end Position

-- ============================================================================
-- Words
-- ============================================================================

/-- Words that stand one behind the other. -/
structure InOrder (ws : List Word) : Prop where
  ordered : ∀ w ∈ ws, w.span.start ≤ w.span.stop
  pairwise : ws.Pairwise fun w v => w.span.stop ≤ v.span.start

namespace InOrder

variable {ws vs : List Word}

theorem sublist (h : InOrder ws) (hvs : vs.Sublist ws) : InOrder vs :=
  ⟨fun w hw => h.ordered w (hvs.subset hw), h.pairwise.sublist hvs⟩

/-- No word stands above one before it. -/
theorem row_le (h : InOrder (ws ++ vs)) {w v : Word} (hw : w ∈ ws) (hv : v ∈ vs) :
    w.span.start.line ≤ v.span.start.line := by
  obtain ⟨-, -, hbehind⟩ := List.pairwise_append.mp h.pairwise
  have hordered := h.ordered w (List.mem_append_left vs hw)
  exact Position.line_le_of_le (Position.le_trans hordered (hbehind w hw v hv))

end InOrder

/-- The words of a text, and what ends it. -/
theorem inOrder_text (cs : List Char) : InOrder (wordsOf cs ++ [endOf cs]) := by
  have hlaid := Token.laid_scanFrom [] 0 cs
  have hmode : Token.Mode.behind [] = .outside := rfl
  rw [hmode] at hlaid
  constructor
  · refine List.forall_mem_append.mpr ⟨fun w hw => ?_, fun w hw => ?_⟩
    · obtain ⟨t, ht, rfl⟩ := List.mem_map.mp hw
      exact LineIndex.position_mono _ (hlaid.start_le_stop t ht)
    · obtain rfl := List.mem_singleton.mp hw
      exact Position.le_refl _
  · refine List.pairwise_append.mpr ⟨?_, List.pairwise_singleton _ _, fun w hw v hv => ?_⟩
    · refine List.pairwise_map.mpr (hlaid.pairwise.imp fun {t u} htu => ?_)
      exact LineIndex.position_mono _ htu
    · obtain ⟨t, ht, rfl⟩ := List.mem_map.mp hw
      obtain rfl := List.mem_singleton.mp hv
      have hle := (Token.le_width_of_mem_scanFrom ht).2
      rw [Nat.zero_add, ← Text.length_bytes] at hle
      exact LineIndex.position_mono _ hle

-- ============================================================================
-- Lines
-- ============================================================================

/-- A line of which all words begin and end on its row. -/
structure Line.IsOneRow (l : Line) : Prop where
  inLine : InLine l.words
  start : ∀ w ∈ l.words, w.span.start.line = l.row
  stop : ∀ w ∈ l.words, w.span.stop.line = l.row

/-- Words that begin on the row of their line end there too, since the end of the line is behind
them. -/
theorem isOneRow_endedLines {close : Word} {ws : List Word} (hwords : InOrder (ws ++ [close]))
    (hclose : close.kind.endsDeclaration = true) (hfile : ∀ w ∈ ws, w.kind ≠ .endOfFile)
    (hrows : OnRows (endedLines close [] ws)) : ∀ l ∈ endedLines close [] ws, l.IsOneRow := by
  intro l hl
  have hstart : ∀ w ∈ l.words, w.span.start.line = l.row :=
    fun w hw => hrows.standsOn l hl w (List.mem_cons_of_mem _ hw)
  refine ⟨(isEnded_endedLines hclose hfile l hl).1, hstart, fun w hw => ?_⟩
  obtain ⟨front, rest, rfl, -, -, hstop, -⟩ := exists_split_of_mem hl
  have hline : InOrder (l.words ++ (rest ++ [close])) := by
    refine hwords.sublist ?_
    rw [List.append_assoc, List.append_assoc]
    exact List.sublist_append_right front _
  have hmem : l.stop ∈ rest ++ [close] := by
    rw [hstop]
    cases rest <;> simp
  obtain ⟨-, -, hbehind⟩ := List.pairwise_append.mp hline.pairwise
  have hlow := Position.line_le_of_le (hline.ordered w (List.mem_append_left _ hw))
  have hhigh := Position.line_le_of_le (hbehind w hw l.stop hmem)
  have hrow : l.stop.span.start.line = l.row := rfl
  rw [hstart w hw] at hlow
  omega

theorem isOneRow_linesOf (cs : List Char) : ∀ l ∈ linesOf cs, l.IsOneRow :=
  isOneRow_endedLines (inOrder_text cs) rfl (kind_ne_of_mem_wordsOf cs) (onRows_linesOf cs)

/-- **What a line makes up** stands on its row. -/
theorem Line.IsOneRow.span {l : Line} (h : l.IsOneRow) {α : Type} {p : Place α}
    (hp : p.result? = none) {result : α × Attributes}
    (hresult : (p.read l.words).outcome l.stop = .ok result) :
    ((p.read l.words).span l.stop).start.line = l.row ∧
      ((p.read l.words).span l.stop).stop.line = l.row := by
  have hall := Place.words_of_outcome h.inLine hresult
  obtain ⟨w, ws, hwords⟩ : ∃ w ws, l.words = w :: ws := by
    refine List.exists_cons_of_ne_nil fun hnil => ?_
    obtain ⟨-, hplace⟩ := Reading.outcome_eq_ok_iff.mp hresult
    rw [hnil] at hplace
    exact absurd (hp.symm.trans hplace) (by simp)
  have hfirst : ((p.read l.words).words.headD ((p.read l.words).stop l.stop)) = w := by
    rw [hall, hwords, List.headD_cons]
  have hlast : (p.read l.words).words.getLastD w ∈ l.words := by
    rw [hall, hwords, List.getLastD_cons]
    exact List.getLastD_mem_cons
  have hw : w ∈ l.words := hwords ▸ List.mem_cons_self
  rw [Reading.span]
  dsimp only
  rw [hfirst, Position.line_max, h.start w hw, h.stop _ hlast, Nat.max_self]
  exact ⟨rfl, rfl⟩

end TimedNet
