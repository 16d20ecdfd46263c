/-
  TimedNet.Proofs.Session.OneLine

  On how many lines a diagnostic stands. The words of a text keep to one line, but for the ends of
  lines, which reach down to the next one (`isPlaced_text`). What is said about a line is shown at
  its words or at all of them; an end of line that does not fit is shown where it starts
  (`Fault.isOnOneLine`). All this keeps to one line. It is not so where a session gives up: it says
  that it does so at the word that it stands before, and if that is the end of a line, of the line
  that it could not read or of a blank one, then this one diagnostic reaches to the next line.
-/
import TimedNet.Proofs.Session.FirstLines
import TimedNet.Proofs.Session.WordOrder
import TimedNet.Proofs.Text.Pieces

namespace TimedNet

-- ============================================================================
-- Spans on one line
-- ============================================================================

/-- A stretch that starts and stops on one line. -/
def Span.IsOnOneLine (s : Span) : Prop := s.start.line = s.stop.line

instance (s : Span) : Decidable s.IsOnOneLine :=
  inferInstanceAs (Decidable (s.start.line = s.stop.line))

/-- In print, such a stretch is its first position, perhaps with a last column further along. -/
theorem Span.IsOnOneLine.text {s : Span} (h : s.IsOnOneLine) :
    s.text = s.start.text ∨
      s.start.column + 1 < s.stop.column ∧
        s.text = s.start.text ++ "-" ++ toString s.stop.column := by
  unfold Span.text
  split
  · exact Or.inl rfl
  · split
    · split
      · next hcolumn => exact Or.inr ⟨hcolumn, rfl⟩
      · exact Or.inl rfl
    · next hline => exact absurd h hline

/-- A stretch down to where the next line begins is printed with a last column that is none. -/
theorem Span.text_of_next_line {s : Span} (h : s.stop = ⟨s.start.line + 1, 0⟩) :
    s.text = s.start.text ++ "-" ++ toString (s.start.line + 2) ++ ".0" := by
  have hline : s.start.line ≠ s.stop.line := by
    rw [h]
    exact Nat.ne_of_lt (Nat.lt_succ_self _)
  have hempty : ¬ s.isEmpty = true := by
    rw [Span.isEmpty_iff]
    exact fun hsame => hline (congrArg Position.line hsame)
  have hcolumn : "." ++ toString (0 : Nat) = ".0" := by decide
  rw [Span.text, if_neg hempty, if_neg hline, h, String.append_assoc]
  exact congrArg _ hcolumn

-- ============================================================================
-- Words
-- ============================================================================

/-- A word stands on one line; the end of a line reaches to where the next one begins. -/
structure Word.IsPlaced (w : Word) : Prop where
  isOnOneLine : w.kind ≠ .endOfLine → w.span.IsOnOneLine
  endOfLine : w.kind = .endOfLine → w.span.stop = ⟨w.span.start.line + 1, 0⟩

namespace Word.IsPlaced

theorem below {w : Word} (h : w.IsPlaced) (lines : Nat) : (w.below lines).IsPlaced where
  isOnOneLine hkind := congrArg (lines + ·) (h.isOnOneLine hkind)
  endOfLine hkind := by
    have hstop := h.endOfLine hkind
    show w.span.stop.below lines = ⟨lines + w.span.start.line + 1, 0⟩
    rw [hstop]
    rfl

theorem of_isOnOneLine {w : Word} (h : w.span.IsOnOneLine) (hkind : w.kind ≠ .endOfLine) :
    w.IsPlaced := ⟨fun _ => h, fun hend => absurd hend hkind⟩

end Word.IsPlaced

theorem isPlaced_newlineOf (cs : List Char) : (newlineOf cs).IsPlaced where
  isOnOneLine hkind := absurd rfl hkind
  endOfLine _ := by
    rw [newlineOf, LineIndex.position_length]
    rfl

/-- The words of a text without newlines are all on its one line. -/
theorem isPlaced_of_line {cs : List Char} (hcs : '\n' ∉ cs) : ∀ w ∈ wordsOf cs, w.IsPlaced := by
  have hbytes : Text.newline ∉ Text.bytes cs := by
    rw [← List.count_eq_zero]
    exact Text.count_newline_eq_zero hcs
  intro w hw
  obtain ⟨t, ht, rfl⟩ := List.mem_map.mp hw
  refine .of_isOnOneLine ?_ (Token.kind_ne_endOfLine hcs ht)
  show ((LineIndex.ofBytes _).position t.start).line = ((LineIndex.ofBytes _).position t.stop).line
  rw [LineIndex.position_line hbytes, LineIndex.position_line hbytes]

theorem isPlaced_endOf (cs : List Char) : (endOf cs).IsPlaced :=
  .of_isOnOneLine rfl (by simp [endOf, Token.word, Token.endOfFile])

/-- **The words of a text**, and what ends it, line by line. -/
theorem isPlaced_wordsOf (cs : List Char) : ∀ w ∈ wordsOf cs, w.IsPlaced := by
  by_cases hcs : '\n' ∈ cs
  · obtain ⟨as, bs, rfl, has⟩ := List.eq_append_cons_of_mem hcs
    rw [wordsOf_newline]
    refine List.forall_mem_append.mpr ⟨isPlaced_of_line has, List.forall_mem_cons.mpr
      ⟨isPlaced_newlineOf as, fun w hw => ?_⟩⟩
    obtain ⟨v, hv, rfl⟩ := List.mem_map.mp hw
    exact (isPlaced_wordsOf bs v hv).below _
  · exact isPlaced_of_line hcs
termination_by cs.length
decreasing_by
  subst_vars
  simp only [List.length_append, List.length_cons]
  omega

theorem isPlaced_text (cs : List Char) : ∀ w ∈ wordsOf cs ++ [endOf cs], w.IsPlaced :=
  List.forall_mem_append.mpr
    ⟨isPlaced_wordsOf cs, List.forall_mem_singleton.mpr (isPlaced_endOf cs)⟩

-- ============================================================================
-- Lines
-- ============================================================================

/-- No word of a line ends it. -/
theorem Line.IsOneRow.kind_ne_endOfLine {l : Line} (h : l.IsOneRow) :
    ∀ w ∈ l.words, w.kind ≠ .endOfLine := by
  intro w hw hend
  have hinside := h.inLine w hw
  rw [hend] at hinside
  exact absurd hinside (by decide)

/-- A line keeps to one row: its words do, and what ends it is placed as words are. -/
structure Line.KeepsToRow (l : Line) : Prop where
  isOneRow : l.IsOneRow
  stop : l.stop.IsPlaced

theorem keepsToRow_linesOf (cs : List Char) : ∀ l ∈ linesOf cs, l.KeepsToRow := by
  intro l hl
  refine ⟨isOneRow_linesOf cs l hl, ?_⟩
  exact (forall_endedLines (isPlaced_endOf cs) (isPlaced_wordsOf cs) l hl) l.stop
    List.mem_cons_self

/-- The end of a line that does not fit is shown where it starts, any other word on its line. -/
theorem Fault.isOnOneLine {f : Fault} (h : f.found.IsPlaced) : f.span.IsOnOneLine := by
  unfold Fault.span
  split
  · rfl
  · next hkind => exact h.isOnOneLine hkind

namespace Line.KeepsToRow

variable {l : Line}

theorem isOnOneLine_of_mem (h : l.KeepsToRow) {w : Word} (hw : w ∈ l.words) :
    w.span.IsOnOneLine := (h.isOneRow.start w hw).trans (h.isOneRow.stop w hw).symm

/-- The fault of a line keeps to it, whatever the line has to declare. -/
theorem isOnOneLine_of_fault (h : l.KeepsToRow) {α : Type} {p : Place α} {f : Fault}
    (houtcome : (p.read l.words).outcome l.stop = .error f) : f.span.IsOnOneLine := by
  have hmem := p.stop_mem l.stop l.words
  rw [← Reading.found_of_outcome houtcome] at hmem
  rcases List.mem_cons.mp hmem with hstop | hword
  · exact f.isOnOneLine (hstop ▸ h.stop)
  · exact f.isOnOneLine (.of_isOnOneLine (h.isOnOneLine_of_mem hword)
      (h.isOneRow.kind_ne_endOfLine f.found hword))

/-- **What is said about a line** keeps to it. -/
theorem isOnOneLine_of_enter (h : l.KeepsToRow) (s : Store) (check : BoundsCheck) :
    ∀ d ∈ (s.enter check l.stop l.words).diagnostics, d.span.IsOnOneLine := by
  intro d hd
  rcases Store.span_of_enter hd with ⟨w, hw, hspan⟩ | ⟨f, houtcome, hspan⟩ |
    ⟨φ, as, houtcome, hspan⟩
  · rw [hspan]
    exact h.isOnOneLine_of_mem hw
  · rw [hspan]
    exact h.isOnOneLine_of_fault houtcome
  · obtain ⟨hstart, hstop⟩ := h.isOneRow.span (p := Phrase.opening) rfl houtcome
    rw [hspan]
    exact hstart.trans hstop.symm

end Line.KeepsToRow

/-- What is said about lines that keep to their rows keeps to one line each. -/
theorem Store.isOnOneLine_of_enterLines (s : Store) (check : BoundsCheck) {ls : List Line}
    (hls : ∀ l ∈ ls, l.KeepsToRow) : ∀ d ∈ (s.enterLines check ls).1, d.span.IsOnOneLine := by
  induction ls generalizing s with
  | nil => exact fun d hd => absurd hd (by simp [enterLines])
  | cons l ls ih =>
    obtain ⟨hl, hls⟩ := List.forall_mem_cons.mp hls
    exact List.forall_mem_append.mpr ⟨hl.isOnOneLine_of_enter s check, ih _ hls⟩

-- ============================================================================
-- Texts
-- ============================================================================

/-- A text without any words has one line to report faults of, which is empty. -/
theorem keepsToRow_of_nil (cs : List Char) : Line.KeepsToRow ⟨[], endOf cs⟩ where
  isOneRow := ⟨by simp [InLine], by simp, by simp⟩
  stop := isPlaced_endOf cs

/-- What a session says where it gives up keeps to one line unless it stands at the end of one. -/
theorem Session.GaveUp.cases {cs : List Char} {u t : Session} {last : List Diagnostic}
    (h : u.GaveUp t last) (hwords : u.words = wordsOf cs) (hclose : u.close = endOf cs) :
    ∃ d, last = [d] ∧ d.code = .tooManyErrors ∧ d.span = t.current.span ∧
      (t.current.kind ≠ .endOfLine ∧ d.span.IsOnOneLine ∨
        t.current.kind = .endOfLine ∧ d.span.stop = ⟨d.span.start.line + 1, 0⟩) := by
  obtain ⟨count, rfl⟩ := h.said
  have hplaced : t.current.IsPlaced := by
    refine isPlaced_text cs _ ?_
    rw [← hwords, ← hclose]
    exact h.current
  refine ⟨_, rfl, rfl, rfl, ?_⟩
  by_cases hkind : t.current.kind = .endOfLine
  · exact Or.inr ⟨hkind, hplaced.endOfLine hkind⟩
  · exact Or.inl ⟨hkind, hplaced.isOnOneLine hkind⟩

/-- **Diagnostics keep to one line**, with any options, and are printed so: as a first position,
perhaps with a last column further along. The one that is not is the last that is said, that there
are more errors than the limit, if the session gives up before the end of a line: it reaches to
where the next line begins, which is printed as the last column 0 of that line. -/
theorem diagnostics_on_one_line (source : String) (options : Options) :
    let session := Session.new (Token.scan source) (.ofText source) options .empty
    let p := parse source options
    ∀ d ∈ p.diagnostics,
      (d.span.IsOnOneLine ∧
        (d.span.text = d.span.start.text ∨
          d.span.start.column + 1 < d.span.stop.column ∧
            d.span.text = d.span.start.text ++ "-" ++ toString d.span.stop.column)) ∨
      (options.maxErrors ≠ none ∧ d.code = .tooManyErrors ∧ p.diagnostics.getLast? = some d ∧
        session.read.2.current.kind = .endOfLine ∧ d.span = session.read.2.current.span ∧
        d.span.stop = ⟨d.span.start.line + 1, 0⟩ ∧
        d.span.text = d.span.start.text ++ "-" ++ toString (d.span.start.line + 2) ++ ".0") := by
  intro session p d hd
  have hlines := keepsToRow_linesOf source.toList
  rcases diagnostics_cases source options with ⟨l, f, hl, houtcome, hsaid⟩ |
    ⟨first, upper, lower, last, hall, hsaid, hlast⟩
  · have hrow : l.KeepsToRow := hl.elim (hlines l) fun hnil => hnil ▸ keepsToRow_of_nil _
    rw [hsaid] at hd
    obtain rfl := List.mem_singleton.mp hd
    have hspan : f.diagnostic.span.IsOnOneLine := hrow.isOnOneLine_of_fault houtcome
    exact Or.inl ⟨hspan, hspan.text⟩
  · have hupper : ∀ l ∈ upper, l.KeepsToRow := fun l hl => hlines l (by simp [hall, hl])
    rw [hsaid] at hd
    rcases List.mem_append.mp hd with hd | hd
    · have hspan := Store.empty.isOnOneLine_of_enterLines options.boundsCheck hupper d hd
      exact Or.inl ⟨hspan, hspan.text⟩
    · rcases hlast with rfl | hgave
      · exact absurd hd List.not_mem_nil
      · obtain ⟨e, rfl, hcode, hstands, hspan⟩ := hgave.cases rfl rfl
        obtain rfl := List.mem_singleton.mp hd
        rcases hspan with ⟨-, hline⟩ | ⟨hkind, hstop⟩
        · exact Or.inl ⟨hline, hline.text⟩
        · have htext := Span.text_of_next_line hstop
          refine Or.inr ⟨hgave.limit, hcode, ?_, hkind, hstands, hstop, htext⟩
          show (parse source options).diagnostics.getLast? = some d
          rw [hsaid, List.getLast?_concat]

/-- A line that is not read to its end, with which there are too many errors. -/
def overLimitSample : String := "system:S\nclock\n"

/-- The fault of the line is shown where the line ends, and so is that there are too many errors;
but only the first of the two keeps to the line. -/
theorem diagnostics_on_one_line_overLimitSample :
    ∃ d e, (parse overLimitSample { maxErrors := some 0 }).diagnostics = [d, e] ∧
      d.span.IsOnOneLine ∧ d.span.text = "2.6" ∧
      e.code = .tooManyErrors ∧ e.span.stop = ⟨2, 0⟩ ∧ e.span.text = "2.6-3.0" := by
  have hone := diagnostics_on_one_line overLimitSample { maxErrors := some 0 }
  have hspans : (parse overLimitSample { maxErrors := some 0 }).diagnostics.map
      (fun d => (d.code, d.span)) =
        [(.unexpectedToken, ⟨⟨1, 5⟩, ⟨1, 5⟩⟩), (.tooManyErrors, ⟨⟨1, 5⟩, ⟨2, 0⟩⟩)] := by
    decide +kernel
  obtain ⟨d, ds, hsaid, hd, hds⟩ := List.map_eq_cons_iff.mp hspans
  obtain ⟨e, es, rfl, he, hes⟩ := List.map_eq_cons_iff.mp hds
  obtain rfl := List.map_eq_nil_iff.mp hes
  obtain ⟨hdcode, hdspan⟩ := Prod.mk.inj hd
  obtain ⟨hecode, hespan⟩ := Prod.mk.inj he
  have hfault := (hone d (by simp [hsaid])).resolve_right fun h =>
    absurd (hdcode.symm.trans h.2.1) (by decide)
  have hlimit := (hone e (by simp [hsaid])).resolve_left fun h =>
    absurd h.1 (by rw [hespan]; decide)
  obtain ⟨-, -, -, -, -, -, htext⟩ := hlimit
  refine ⟨d, e, hsaid, hfault.1, ?_, hecode, ?_, ?_⟩
  · rw [hdspan]
    decide
  · rw [hespan]
  · rw [htext, hespan]
    decide

/-- Not all diagnostics keep to one line. -/
theorem exists_diagnostic_not_on_one_line :
    ¬ ∀ (source : String) (options : Options), ∀ d ∈ (parse source options).diagnostics,
      d.span.IsOnOneLine := by
  intro h
  have hreaches : ¬ ∀ d ∈ (parse overLimitSample { maxErrors := some 0 }).diagnostics,
      d.span.IsOnOneLine := by decide +kernel
  exact hreaches (h overLimitSample { maxErrors := some 0 })

end TimedNet
