/-
  TimedNet.Proofs.Session.SourceOrder

  A text is read from above to below, and what comes out of it keeps that order. The declarations
  of a store stand one below the other and above all lines that are left to read
  (`IsStacked.enter`). What is said about a line stands on its row and points at declarations of the
  store only (`pointsInto_enter`), which are above it; and where a session gives up it stands before
  a word behind that line (`IsAhead.turn`).
-/
import TimedNet.Proofs.Session.CleanText
import TimedNet.Proofs.Session.PlaceIndependence
import TimedNet.Proofs.Session.Stores
import TimedNet.Proofs.Session.WordOrder
import TimedNet.Proofs.Text.Pieces

namespace TimedNet

/-- One stretch ends on a line above the one on which another begins. -/
def Span.IsAbove (s t : Span) : Prop := s.stop.line < t.start.line

/-- All other places that a diagnostic points at are further up. -/
def Diagnostic.PointsUp (d : Diagnostic) : Prop := ∀ r ∈ d.related, r.span.IsAbove d.span

-- ============================================================================
-- Other places that a diagnostic points at
-- ============================================================================

namespace DraftItem

/-- A problem with bounds points nowhere else. -/
theorem related_of_checkBounds {i : DraftItem} {check : BoundsCheck} {d : Diagnostic}
    (h : i.checkBounds check = .error d ∨ i.checkBounds check = .ok (some d)) :
    d.related = [] := by
  obtain ⟨e, he, hd⟩ := boundsProblem_of_checkBounds h
  obtain ⟨_, _, _, _, _, _, _, _, -, -, -, -, rfl⟩ := exists_int_of_boundsProblem he
  rw [hd]
  rfl

end DraftItem

namespace Store

/-- All other places that a diagnostic points at are those of declarations of a store. -/
def PointsInto (s : Store) (d : Diagnostic) : Prop :=
  ∀ r ∈ d.related, ∃ e ∈ s.declarations, r.span = e.span

section PointsInto

variable {s : Store} {d : Diagnostic}

theorem pointsInto_of_related (h : d.related = []) : s.PointsInto d := by
  intro r hr
  rw [h] at hr
  exact absurd hr List.not_mem_nil

/-- The declaration that holds a name is one of the store. -/
theorem Reachable.exists_of_previous (hs : s.Reachable) (id : DeclarationId) :
    ∀ r ∈ s.previous id, ∃ e ∈ s.declarations, r.span = e.span := by
  intro r hr
  obtain ⟨e, he, rfl⟩ := List.mem_map.mp hr
  have hentry := hs.keeps.mem_entries_of_get? (Option.mem_toList.mp he)
  exact ⟨e, Log.snd_mem_of_mem_entries hentry, rfl⟩

variable (hs : s.Reachable)

include hs

theorem Reachable.checks_pointInto (xs : List Lexeme) : s.ChecksFailWith s.PointsInto xs where
  process l _ := by
    unfold findProcess
    split
    · exact .ok _
    · exact .error (pointsInto_of_related rfl)
  event l _ := by
    unfold findEvent
    split
    · exact .ok _
    · exact .error (pointsInto_of_related rfl)
  location p owner l _ := by
    unfold findLocation
    split
    · exact .ok _
    · exact .error (pointsInto_of_related rfl)
  free scope problem _ name _ := by
    unfold checkFree
    split
    · exact .ok _
    · next id _ => exact .error (hs.exists_of_previous id)
  size size kind name _ := by
    unfold Number.checkSize
    split
    · exact .error (pointsInto_of_related rfl)
    · exact .ok _

theorem Reachable.pointsInto_of_fault {part : Part} (h : part.fault? s = some d) :
    s.PointsInto d := by
  cases part with
  | size literal =>
    obtain ⟨e, -, rfl⟩ := mapError_eq_error_iff.mp (complaint?_eq_some_iff.mp h)
    exact pointsInto_of_related rfl
  | bound literal =>
    obtain ⟨e, -, rfl⟩ := mapError_eq_error_iff.mp (complaint?_eq_some_iff.mp h)
    exact pointsInto_of_related rfl
  | link owner label => exact (hs.checks_pointInto [owner, label]).findEnds.complaint h

theorem Reachable.pointsInto_of_accept {check : BoundsCheck} {draft : Draft}
    (h : s.accept check draft = .error d) : s.PointsInto d := by
  rcases accept_cases check s draft with ⟨e, hitem, haccept⟩ | ⟨e, hbounds, haccept⟩ |
    ⟨i, w, e, -, -, -, haccept⟩ | ⟨i, w, -, -, -, haccept⟩
  · obtain rfl := Except.error.inj (haccept.symm.trans h)
    exact (hs.checks_pointInto _).resolve e hitem
  · obtain rfl := Except.error.inj (haccept.symm.trans h)
    exact pointsInto_of_related (DraftItem.related_of_checkBounds (Or.inl hbounds))
  · obtain rfl := Except.error.inj (haccept.symm.trans h)
    exact pointsInto_of_related rfl
  · exact absurd (haccept.symm.trans h) (by simp)

/-- **One line.** Whatever is said about it points at declarations that the store has already. -/
theorem Reachable.pointsInto_enter (check : BoundsCheck) (close : Word) (ws : List Word) :
    ∀ d ∈ (s.enter check close ws).diagnostics, s.PointsInto d := by
  intro d hd
  rcases cause_of_enter hd with ⟨part, -, hfault⟩ | ⟨f, -, rfl⟩ | ⟨φ, as, -, haccept | hbounds⟩
  · exact hs.pointsInto_of_fault hfault
  · exact pointsInto_of_related rfl
  · exact hs.pointsInto_of_accept haccept
  · exact pointsInto_of_related (DraftItem.related_of_checkBounds (Or.inr hbounds))

end PointsInto

-- ============================================================================
-- Declarations one below the other
-- ============================================================================

/-- The declarations of a store stand one below the other, below certain other stretches and above
the lines that are left to enter. -/
structure IsStacked (above : List Span) (s : Store) (ls : List Line) : Prop where
  reachable : s.Reachable
  pairwise : (above ++ s.declarations.map Declaration.span).Pairwise Span.IsAbove
  ends : ∀ l ∈ ls, ∀ t ∈ above ++ s.declarations.map Declaration.span, t.stop.line < l.row

namespace IsStacked

variable {above : List Span} {s : Store} {l : Line} {ls : List Line}

/-- Where nothing has been declared yet. -/
theorem empty (hpairwise : above.Pairwise Span.IsAbove)
    (hends : ∀ l ∈ ls, ∀ t ∈ above, t.stop.line < l.row) : IsStacked above .empty ls := by
  have hspans : above ++ Store.empty.declarations.map Declaration.span = above :=
    List.append_nil above
  exact ⟨.empty, by rwa [hspans], by rwa [hspans]⟩

/-- **One line** puts its declaration below all others, and above the lines behind it. -/
theorem enter (h : s.IsStacked above (l :: ls)) (hrows : OnRows (l :: ls)) (hl : l.IsOneRow)
    (check : BoundsCheck) : (s.enter check l.stop l.words).store.IsStacked above ls := by
  obtain ⟨hends, hothers⟩ := List.forall_mem_cons.mp h.ends
  rcases s.store_of_enter check l.stop l.words with hsame | ⟨φ, as, i, houtcome, -, hfault, hpush⟩
  · rw [hsame]
    exact ⟨h.reachable, h.pairwise, hothers⟩
  · let d : Declaration := ⟨i, as, (Phrase.opening.read l.words).span l.stop⟩
    obtain ⟨hstart, hstop⟩ := hl.span (p := Phrase.opening) rfl houtcome
    have hdeclarations : (s.push d).declarations = s.declarations ++ [d] :=
      (appends_push h.reachable.keeps hfault).declarations
    have hspans : above ++ (s.push d).declarations.map Declaration.span =
        (above ++ s.declarations.map Declaration.span) ++ [d.span] := by
      rw [hdeclarations, List.map_append, List.append_assoc]
      rfl
    rw [hpush]
    refine ⟨h.reachable.push hfault, ?_, fun k hk => ?_⟩
    · rw [hspans]
      refine List.pairwise_append.mpr ⟨h.pairwise, List.pairwise_singleton _ _, fun t ht u hu => ?_⟩
      obtain rfl := List.mem_singleton.mp hu
      have hlt := hends t ht
      rwa [← hstart] at hlt
    · rw [hspans]
      refine List.forall_mem_append.mpr ⟨hothers k hk, List.forall_mem_singleton.mpr ?_⟩
      have hlt := (List.pairwise_cons.mp hrows.pairwise).1 k hk
      rwa [← hstop] at hlt

/-- A run of lines. -/
theorem enterLines (h : s.IsStacked above ls) (hrows : OnRows ls) (hls : ∀ l ∈ ls, l.IsOneRow)
    (check : BoundsCheck) : (s.enterLines check ls).2.IsStacked above [] := by
  induction ls generalizing s with
  | nil => exact h
  | cons l ls ih =>
    obtain ⟨hl, hls⟩ := List.forall_mem_cons.mp hls
    exact ih (h.enter hrows hl check) hrows.of_cons hls

/-- What is said about the next line stands on its row and points further up. -/
theorem said_of_enter (h : s.IsStacked above (l :: ls)) (hrows : OnRows (l :: ls))
    (check : BoundsCheck) :
    ∀ d ∈ (s.enter check l.stop l.words).diagnostics, d.span.start.line = l.row ∧ d.PointsUp := by
  intro d hd
  obtain ⟨w, hw, hstart⟩ := start_of_enter hd
  have hrow : d.span.start.line = l.row := by
    rw [hstart]
    exact hrows.standsOn l List.mem_cons_self w hw
  refine ⟨hrow, fun r hr => ?_⟩
  obtain ⟨e, he, hspan⟩ := h.reachable.pointsInto_enter check l.stop l.words d hd r hr
  have hends := h.ends l List.mem_cons_self e.span
    (List.mem_append_right above (List.mem_map_of_mem he))
  rwa [← hspan, ← hrow] at hends

end IsStacked

end Store

-- ============================================================================
-- Diagnostics one below the other
-- ============================================================================

/-- What is said from a row on comes in the order of the rows, and points only further up. -/
structure InSourceOrder (row : Nat) (ds : List Diagnostic) : Prop where
  pairwise : ds.Pairwise fun d e => d.span.start.line ≤ e.span.start.line
  row_le : ∀ d ∈ ds, row ≤ d.span.start.line
  related : ∀ d ∈ ds, d.PointsUp

namespace InSourceOrder

variable {row : Nat} {ds es : List Diagnostic}

theorem nil : InSourceOrder row [] := ⟨.nil, by simp, by simp⟩

theorem singleton {d : Diagnostic} (hrow : row ≤ d.span.start.line) (hrelated : d.related = []) :
    InSourceOrder row [d] := by
  refine ⟨List.pairwise_singleton _ d, List.forall_mem_singleton.mpr hrow, ?_⟩
  refine List.forall_mem_singleton.mpr fun r hr => ?_
  rw [hrelated] at hr
  exact absurd hr List.not_mem_nil

theorem mono {row' : Nat} (h : InSourceOrder row' ds) (hrow : row ≤ row') : InSourceOrder row ds :=
  ⟨h.pairwise, fun d hd => Nat.le_trans hrow (h.row_le d hd), h.related⟩

/-- What is said on one row comes before what is said from that row on. -/
theorem append_row (hds : ∀ d ∈ ds, d.span.start.line = row ∧ d.PointsUp)
    (hes : InSourceOrder row es) : InSourceOrder row (ds ++ es) where
  pairwise := by
    refine List.pairwise_append.mpr ⟨?_, hes.pairwise, fun d hd e he => ?_⟩
    · refine List.pairwise_of_forall_mem_list fun d hd e he => ?_
      rw [(hds d hd).1, (hds e he).1]
    · rw [(hds d hd).1]
      exact hes.row_le e he
  row_le := List.forall_mem_append.mpr ⟨fun d hd => Nat.le_of_eq (hds d hd).1.symm, hes.row_le⟩
  related := List.forall_mem_append.mpr ⟨fun d hd => (hds d hd).2, hes.related⟩

end InSourceOrder

-- ============================================================================
-- Sessions
-- ============================================================================

/-- What is left to read, and the end of the text `close`, stands from a row on. It is in order, its
lines stand on rows of their own, and the declarations of a store stand above them. -/
structure IsAhead (close : Word) (words : List Word) (s : Store) (row : Nat) : Prop where
  ended : close.kind.endsDeclaration = true
  file : ∀ w ∈ words, w.kind ≠ .endOfFile
  inOrder : InOrder (words ++ [close])
  onRows : OnRows (endedLines close [] words)
  stacked : s.IsStacked [] (endedLines close [] words)
  row_le : ∀ w ∈ words ++ [close], row ≤ w.span.start.line

/-- **One turn of the loop.** What is said about a line stands on its row, and what is left to read
stands from that row on. -/
theorem IsAhead.turn {close : Word} {words : List Word} {s : Store} {row : Nat}
    (h : IsAhead close words s row) (check : BoundsCheck) {w : Word} {ws : List Word}
    (hskip : skipLineEnds words = w :: ws) :
    let entry := s.enter check close (w :: ws)
    ∃ row', row ≤ row' ∧ IsAhead close entry.rest entry.store row' ∧
      ∀ d ∈ entry.diagnostics, d.span.start.line = row' ∧ d.PointsUp := by
  obtain ⟨l, front, rest, hwords, hne, hsuffix, hlines, hdiagnostics, hstore⟩ :=
    s.enter_line_of_words check close h.file hskip
  intro entry
  have hrows := h.onRows
  have hstacked := h.stacked
  have hall : ∀ k ∈ endedLines close [] words, k.IsOneRow :=
    isOneRow_endedLines h.inOrder h.ended h.file hrows
  rw [hlines] at hrows hstacked hall
  obtain ⟨hl, -⟩ := List.forall_mem_cons.mp hall
  -- the words that are left stand behind one of the line
  have hbehind : (entry.rest ++ [close]) <:+ rest ++ [close] := by
    obtain ⟨passed, rfl⟩ := hsuffix
    rw [List.append_assoc]
    exact List.suffix_append passed _
  have horder : InOrder (l.words ++ (rest ++ [close])) := by
    refine h.inOrder.sublist ?_
    rw [hwords, List.append_assoc, List.append_assoc]
    exact List.sublist_append_right front _
  obtain ⟨v, hv⟩ := List.exists_mem_of_ne_nil l.words hne
  have hvrow := hl.start v hv
  refine ⟨l.row, ?_, ?_, ?_⟩
  · rw [← hvrow]
    exact h.row_le v (by simp [hwords, hv])
  · refine ⟨h.ended, fun u hu => ?_, ?_, hrows.of_cons, ?_, fun u hu => ?_⟩
    · exact h.file u (by simp [hwords, hsuffix.subset hu])
    · exact horder.sublist (hbehind.sublist.trans (List.sublist_append_right l.words _))
    · rw [hstore]
      exact hstacked.enter hrows hl check
    · rw [← hvrow]
      exact horder.row_le hv (hbehind.subset hu)
  · rw [hdiagnostics]
    exact hstacked.said_of_enter hrows check

namespace Session

/-- **The loop over the lines**, with or without a limit on errors. -/
theorem inSourceOrder_readDeclarations (u : Session) (s : Store) :
    ∀ row, IsAhead u.close u.words s row →
      ∃ ds, (u.readDeclarations s).2.report = u.report.append ds ∧ InSourceOrder row ds := by
  induction u, s using readDeclarations.induct with
  | case1 u s hs =>
    intro row h
    rw [readDeclarations_of_nil s hs]
    exact ⟨[], rfl, .nil⟩
  | case2 u s w ws hs hw =>
    intro row h
    rw [readDeclarations_of_cons s hs, if_pos hw]
    exact ⟨[], rfl, .nil⟩
  | case3 u s w ws hs hw entry next hover =>
    intro row h
    obtain ⟨row', hrow, hahead, hsaid⟩ := h.turn u.options.boundsCheck hs
    rw [readDeclarations_of_over hs hw rfl rfl hover]
    have hcurrent : next.current ∈ entry.rest ++ [u.close] := by
      show entry.rest.headD u.close ∈ entry.rest ++ [u.close]
      cases entry.rest <;> simp
    refine ⟨entry.diagnostics ++ [(Problem.tooManyErrors next.errorCount).diagnostic
      next.current.span], ?_, ?_⟩
    · rw [Report.append_append]
      rfl
    · have habort := hahead.row_le _ hcurrent
      exact (InSourceOrder.append_row hsaid (.singleton habort rfl)).mono hrow
  | case4 u s w ws hs hw entry next hover ih =>
    intro row h
    obtain ⟨row', hrow, hahead, hsaid⟩ := h.turn u.options.boundsCheck hs
    rw [readDeclarations_of_not_over hs hw rfl rfl hover]
    obtain ⟨ds, hreport, hds⟩ := ih row' hahead
    refine ⟨entry.diagnostics ++ ds, ?_, (InSourceOrder.append_row hsaid hds).mono hrow⟩
    rw [hreport, Report.append_append]
    rfl

end Session

-- ============================================================================
-- Texts
-- ============================================================================

/-- All spans of what comes out of a text. -/
def Parsed.spans (p : Parsed) : List Span :=
  p.diagnostics.flatMap Diagnostic.spans ++ p.system.toList.flatMap System.spans

variable (source : String) (options : Options)

theorem isSpan_of_parse :
    ∀ s ∈ (parse source options).spans, (LineIndex.ofText source).IsSpan s := by
  let index := LineIndex.ofText source
  have hranges : ∀ t ∈ Token.scan source, t.start ≤ t.stop :=
    (Token.laid_scan source).start_le_stop
  obtain ⟨hsystem, hsession⟩ := (Session.lockstep_corresponds index.compatible_isSpan).read
    (Session.corresponds_new_of_ranges hranges index options)
  have hP : ∀ a b : Span, a = b ∧ index.IsSpan a → index.IsSpan a := fun _ _ hab => hab.2
  refine List.forall_mem_append.mpr ⟨fun s hs => ?_, fun s hs => ?_⟩
  · obtain ⟨d, hd, hs⟩ := List.mem_flatMap.mp hs
    exact forall_of_forall₂ (fun _ _ hde => hde.forall_spans hP) hsession.report.entries d hd s hs
  · obtain ⟨n, hn, hs⟩ := List.mem_flatMap.mp hs
    have hread : (parse source options).system = some n := Option.mem_toList.mp hn
    rcases none_or_some hsystem with ⟨hnone, -⟩ | ⟨m, m', hm, -, hmm⟩
    · exact absurd (hread.symm.trans hnone) (by simp)
    · obtain rfl := Option.some.inj (hread.symm.trans hm)
      exact hmm.forall_spans hP s hs

/-- **What is said about a text** comes in the order of its lines. -/
theorem inSourceOrder_parse : InSourceOrder 0 (parse source options).diagnostics := by
  let u := Session.new (Token.scan source) (.ofText source) options .empty
  have hfile : ∀ w ∈ u.words, w.kind ≠ .endOfFile := kind_ne_of_mem_wordsOf source.toList
  have hreport : u.read.2.report = u.build.report := by
    obtain ⟨-, -, -, -, hreport⟩ := u.says_read
    exact hreport
  show InSourceOrder 0 u.read.2.report.entries
  rw [hreport]
  have hfailed : ∀ (f : Fault) (ws : List Word),
      u.readHeader = (none, ((u.say [f.diagnostic]).goTo ws).giveUp) →
        InSourceOrder 0 u.build.report.entries := by
    intro f ws hread
    rw [Session.build_of_none hread]
    exact .singleton (Nat.zero_le _) rfl
  cases hlines : endedLines u.close [] u.words with
  | nil =>
    obtain ⟨f, ws, -, hread⟩ := u.readHeader_of_nil hfile hlines
    exact hfailed f ws hread
  | cons first others =>
    rcases u.readHeader_by_line rfl hfile hlines with
      ⟨f, ws, -, hread⟩ | ⟨name, as, ws, -, hread, hothers, hsuffix⟩
    · exact hfailed f ws hread
    · have hrows : OnRows (first :: others) := hlines ▸ onRows_linesOf source.toList
      have hahead : IsAhead u.close ws .empty 0 := by
        refine ⟨rfl, fun w hw => hfile w (hsuffix.subset hw), ?_, ?_, ?_, fun _ _ => Nat.zero_le _⟩
        · exact (inOrder_text source.toList).sublist (hsuffix.sublist.append_right _)
        · rw [hothers]
          exact hrows.of_cons
        · exact .empty .nil fun _ _ t ht => absurd ht List.not_mem_nil
      obtain ⟨ds, hsaid, hds⟩ := (u.goTo ws).inSourceOrder_readDeclarations .empty 0 hahead
      rw [Session.build_of_some hread]
      show InSourceOrder 0 ((u.goTo ws).readDeclarations .empty).2.report.entries
      rw [hsaid, Report.entries_append]
      exact hds

variable {source options}

/-- **A network that is read** has its declarations one below the other, all below its own. -/
theorem pairwise_isAbove_of_parse {n : System} (h : (parse source options).system = some n) :
    (n.span :: n.store.declarations.map Declaration.span).Pairwise Span.IsAbove := by
  obtain ⟨first, others, name, as, hlines, hheader, -, rfl⟩ := exists_header_of_parse h
  have hrows : OnRows (first :: others) := hlines ▸ onRows_linesOf source.toList
  have hall : ∀ l ∈ first :: others, l.IsOneRow := hlines ▸ isOneRow_linesOf source.toList
  obtain ⟨hfirst, hothers⟩ := List.forall_mem_cons.mp hall
  obtain ⟨-, hstop⟩ := hfirst.span (p := Header.opening) rfl hheader
  let header : Span := (Header.opening.read first.words).span first.stop
  have hstacked : Store.empty.IsStacked [header] others := by
    refine .empty (List.pairwise_singleton _ _) fun l hl => List.forall_mem_singleton.mpr ?_
    rw [hstop]
    exact (List.pairwise_cons.mp hrows.pairwise).1 l hl
  exact (hstacked.enterLines hrows.of_cons hothers options.boundsCheck).pairwise

/-- **Source order.** With any options, also if reading stops before the end, the diagnostics of a
text come in the order of the lines on which they start, though not of the columns, and all other
places that they point at are further up. Every span starts before it stops and is that of a piece
of the text. The declarations of a network that is read stand one below the other, all below its
own. -/
theorem parse_in_source_order (source : String) (options : Options) :
    let p := parse source options
    p.diagnostics.Pairwise (fun d e => d.span.start.line ≤ e.span.start.line) ∧
      (∀ s ∈ p.spans, s.start ≤ s.stop ∧ s.IsIn (Text.bytes source.toList)) ∧
      (∀ d ∈ p.diagnostics, ∀ r ∈ d.related, r.span.IsAbove d.span) ∧
      ∀ n, p.system = some n →
        (n.span :: n.store.declarations.map Declaration.span).Pairwise Span.IsAbove := by
  have horder := inSourceOrder_parse source options
  refine ⟨horder.pairwise, fun s hs => ?_, horder.related, fun n => pairwise_isAbove_of_parse⟩
  have hspan := isSpan_of_parse source options s hs
  exact ⟨hspan.ordered, hspan.isIn⟩

/-- A warning, a name that is taken, and a line behind which there are too many errors. -/
def stoppedSample : String := "system:s\nint:1:0:5:9:n\nevent:e\nevent:e\nclock\nint\n"

theorem parse_in_source_order_stoppedSample :
    let p := parse stoppedSample ⟨none, some 1, .warn⟩
    p.diagnostics.map (fun d => (d.span.start.line, d.related.map fun r => r.span.start.line)) =
        [(1, []), (3, [2]), (4, []), (4, [])] ∧
      p.diagnostics.Pairwise (fun d e => d.span.start.line ≤ e.span.start.line) ∧
      (∀ d ∈ p.diagnostics, ∀ r ∈ d.related, r.span.IsAbove d.span) ∧
      ∃ n, (parse Session.linkedSample {}).system = some n ∧ n.store.size = 5 ∧
        (n.span :: n.store.declarations.map Declaration.span).Pairwise Span.IsAbove := by
  obtain ⟨hrows, -, hrelated, -⟩ := parse_in_source_order stoppedSample ⟨none, some 1, .warn⟩
  obtain ⟨-, -, -, hnetwork⟩ := parse_in_source_order Session.linkedSample {}
  have hreads : (parse Session.linkedSample {}).system.map (fun n => n.store.size) = some 5 := by
    decide +kernel
  obtain ⟨n, hn, hsize⟩ := Option.map_eq_some_iff.mp hreads
  exact ⟨by decide +kernel, hrows, hrelated, n, hn, hsize, hnetwork n hn⟩

end TimedNet
