/-
  TimedNet.Proofs.Session.ByLine

  A session reads line by line. What is said about a line, and what it adds to the store, depends
  on nothing else of the text (`enter_append`). Unless there are too many errors, the loop over
  the words is a fold over the lines (`readDeclarations_by_line`), so that texts that are cut into
  the same lines are read alike.
-/
import TimedNet.Proofs.Grammar.LineEnds
import TimedNet.Proofs.Session.Soundness

namespace TimedNet

-- ============================================================================
-- One line
-- ============================================================================

namespace Store

/-- **One line.** What is said about it, and what becomes of the store, depends on the line and the
word that ends it. -/
theorem enter_append (check : BoundsCheck) (s : Store) {rest : List Word}
    (hrest : AtLineEnd rest) (line : List Word) (close : Word) :
    (s.enter check close (line ++ rest)).diagnostics =
        (s.enter check (rest.headD close) line).diagnostics ∧
      (s.enter check close (line ++ rest)).store =
        (s.enter check (rest.headD close) line).store := by
  have hparts : (Phrase.opening.read (line ++ rest)).parts = (Phrase.opening.read line).parts := by
    rw [Place.read_append _ hrest]
  simp only [enter, hparts, Place.outcome_append _ hrest, Place.span_append _ hrest]
  split
  · exact ⟨rfl, rfl⟩
  · split <;> exact ⟨rfl, rfl⟩

-- ============================================================================
-- Lines one after the other
-- ============================================================================

/-- What is said about lines that are entered one after the other, and the store behind them. -/
def enterLines (check : BoundsCheck) (s : Store) : List Line → List Diagnostic × Store
  | [] => ([], s)
  | l :: ls =>
    let entry := s.enter check l.stop l.words
    let more := enterLines check entry.store ls
    (entry.diagnostics ++ more.1, more.2)

theorem enterLines_append (check : BoundsCheck) (s : Store) (ls ms : List Line) :
    s.enterLines check (ls ++ ms) =
      ((s.enterLines check ls).1 ++ ((s.enterLines check ls).2.enterLines check ms).1,
        ((s.enterLines check ls).2.enterLines check ms).2) := by
  induction ls generalizing s with
  | nil => rfl
  | cons l ls ih => simp only [List.cons_append, enterLines, ih, List.append_assoc]

end Store

-- ============================================================================
-- Sessions
-- ============================================================================

/-- Entering what is left to read enters its first line. The words that are left then are behind
that line, and the other lines are left with them. -/
theorem Store.enter_line_of_words (s : Store) (check : BoundsCheck) (close : Word)
    {words : List Word} (hfile : ∀ w ∈ words, w.kind ≠ .endOfFile) {w : Word} {ws : List Word}
    (hskip : skipLineEnds words = w :: ws) :
    let entry := s.enter check close (w :: ws)
    ∃ (l : Line) (front rest : List Word), words = front ++ (l.words ++ rest) ∧ l.words ≠ [] ∧
      entry.rest <:+ rest ∧ endedLines close [] words = l :: endedLines close [] entry.rest ∧
      entry.diagnostics = (s.enter check l.stop l.words).diagnostics ∧
      entry.store = (s.enter check l.stop l.words).store := by
  rcases exists_endedLine close words hfile with
    ⟨hnil, -⟩ | ⟨line, rest, hsplit, hne, hline, hrest, -, hlines⟩
  · exact absurd (hskip.symm.trans hnil) (by simp)
  intro entry
  have hentry : entry = s.enter check close (line ++ rest) := by rw [← hsplit, hskip]
  have hwords : words = words.takeWhile Word.isLineEnd ++ (line ++ rest) := by
    rw [← hsplit]
    exact List.takeWhile_append_dropWhile.symm
  obtain ⟨hdiagnostics, hstore⟩ := s.enter_append check hrest line close
  obtain ⟨hleft, hsuffix⟩ := endedLines_left Phrase.opening (c := .start) rfl hline hrest close
  rw [← enter_rest check s, ← hentry] at hleft hsuffix
  rw [← hentry] at hdiagnostics hstore
  refine ⟨⟨line, rest.headD close⟩, _, rest, hwords, hne, hsuffix, ?_, hdiagnostics, hstore⟩
  rw [hlines, hleft]

/-- What is left is a part of what was. -/
theorem Store.enter_first_line (s : Store) (check : BoundsCheck) (close : Word)
    {words : List Word} (hfile : ∀ w ∈ words, w.kind ≠ .endOfFile) {w : Word} {ws : List Word}
    (hskip : skipLineEnds words = w :: ws) :
    let entry := s.enter check close (w :: ws)
    ∃ l : Line, endedLines close [] words = l :: endedLines close [] entry.rest ∧
      entry.diagnostics = (s.enter check l.stop l.words).diagnostics ∧
      entry.store = (s.enter check l.stop l.words).store ∧ entry.rest <:+ words := by
  obtain ⟨l, front, rest, hwords, -, hsuffix, hlines, hdiagnostics, hstore⟩ :=
    s.enter_line_of_words check close hfile hskip
  have hrest : rest <:+ words := by
    rw [hwords, ← List.append_assoc]
    exact List.suffix_append _ rest
  exact ⟨l, hlines, hdiagnostics, hstore, hsuffix.trans hrest⟩

namespace Session

/-- **The loop over the lines.** Without a limit on errors, and also if no error is found, the words
that are left are entered line by line. -/
theorem readDeclarations_by_line (u : Session) (s : Store)
    (hfile : ∀ w ∈ u.words, w.kind ≠ .endOfFile)
    (hlimit : u.options.maxErrors = none ∨
      (u.readDeclarations s).2.report.errorCount = u.report.errorCount) :
    let entered := s.enterLines u.options.boundsCheck (endedLines u.close [] u.words)
    (u.readDeclarations s).1 = entered.2 ∧
      (u.readDeclarations s).2.report = u.report.append entered.1 := by
  induction u, s using readDeclarations.induct with
  | case1 u s hs =>
    rw [readDeclarations_of_nil s hs, ← endedLines_skipLineEnds, hs]
    exact ⟨rfl, rfl⟩
  | case2 u s w ws hs hw =>
    have hmem : w ∈ skipLineEnds u.words := by rw [hs]; exact List.mem_cons_self
    exact absurd hw (hfile w (List.dropWhile_subset _ hmem))
  | case3 u s w ws hs hw entry next hover =>
    rw [readDeclarations_of_over hs hw rfl rfl hover] at hlimit
    rcases hlimit with hnone | hclean
    · exact absurd hover (not_isOverLimit_of_none hnone)
    · -- giving up is one more error
      have habort : next.abort.report.errorCount = next.report.errorCount + 1 :=
        next.errorCount_say [_]
      have hle : u.report.errorCount ≤ next.report.errorCount :=
        ((u.says_say entry.diagnostics).goTo entry.rest).le_errorCount
      have hcount : next.abort.report.errorCount = u.report.errorCount := hclean
      omega
  | case4 u s w ws hs hw entry next hover ih =>
    have hloop : u.readDeclarations s = next.readDeclarations entry.store :=
      readDeclarations_of_not_over hs hw rfl rfl hover
    obtain ⟨l, hlines, hdiagnostics, hstore, hsuffix⟩ :=
      s.enter_first_line u.options.boundsCheck u.close hfile hs
    have hbehind : ∀ v ∈ next.words, v.kind ≠ .endOfFile := fun v hv => hfile v (hsuffix.subset hv)
    have hlimit' : next.options.maxErrors = none ∨
        (next.readDeclarations entry.store).2.report.errorCount = next.report.errorCount := by
      rcases hlimit with hnone | hclean
      · exact Or.inl hnone
      · right
        rw [hloop] at hclean
        obtain ⟨ds, hmore⟩ := next.says_readDeclarations entry.store
        have hle := hmore.le_errorCount
        have hle' : u.report.errorCount ≤ next.report.errorCount :=
          ((u.says_say entry.diagnostics).goTo entry.rest).le_errorCount
        omega
    obtain ⟨hlast, hreport⟩ := ih hbehind hlimit'
    have hentry : entry.store = (s.enter u.options.boundsCheck l.stop l.words).store := hstore
    have hsaid : next.report =
        u.report.append (s.enter u.options.boundsCheck l.stop l.words).diagnostics :=
      congrArg u.report.append hdiagnostics
    rw [hentry] at hlast hreport
    rw [hsaid, ← Report.append_append] at hreport
    rw [hloop, hlines, hentry]
    exact ⟨hlast, hreport⟩

/-- Where there is no line, nothing declares the network. -/
theorem readHeader_of_nil (u : Session) (hfile : ∀ w ∈ u.words, w.kind ≠ .endOfFile)
    (hlines : endedLines u.close [] u.words = []) :
    ∃ f ws, (Header.opening.read []).outcome u.close = .error f ∧
      u.readHeader = (none, ((u.say [f.diagnostic]).goTo ws).giveUp) := by
  rcases exists_endedLine u.close u.words hfile with ⟨hnil, -⟩ | ⟨_, _, _, _, _, _, _, hsome⟩
  · have houtcome : (Header.opening.read []).outcome u.close =
        .error ⟨.header, u.close, Header.opening.expected⟩ :=
      Reading.outcome_eq_error_iff.mpr ⟨rfl, fun _ => rfl⟩
    refine ⟨_, (Header.opening.read []).left .header u.close, houtcome, ?_⟩
    simp only [readHeader, hnil, houtcome]
  · exact absurd (hlines.symm.trans hsome) (by simp)

/-- **The first line.** It declares the network, and behind it the other lines are left; or it does
not, and its fault is all that is said. -/
theorem readHeader_by_line (u : Session) (hclose : u.close.kind.endsDeclaration = true)
    (hfile : ∀ w ∈ u.words, w.kind ≠ .endOfFile) {first : Line} {others : List Line}
    (hlines : endedLines u.close [] u.words = first :: others) :
    (∃ f ws, (Header.opening.read first.words).outcome first.stop = .error f ∧
        u.readHeader = (none, ((u.say [f.diagnostic]).goTo ws).giveUp)) ∨
      ∃ name as ws, (Header.opening.read first.words).outcome first.stop = .ok (name, as) ∧
        u.readHeader = (some (.new name.text as ((Header.opening.read first.words).span first.stop)),
          u.goTo ws) ∧
        endedLines u.close [] ws = others ∧ ws <:+ u.words := by
  rcases exists_endedLine u.close u.words hfile with
    ⟨-, hnone⟩ | ⟨line, rest, hsplit, hne, hline, hrest, hsuffix, hsome⟩
  · exact absurd (hnone.symm.trans hlines) (by simp)
  obtain ⟨rfl, rfl⟩ := List.cons.inj (hsome.symm.trans hlines)
  have happend := Place.outcome_append Header.opening hrest line u.close
  have hspan := Place.span_append Header.opening hrest line u.close
  cases houtcome : (Header.opening.read line).outcome (rest.headD u.close) with
  | error f =>
    rw [houtcome] at happend
    refine Or.inl ⟨f, (Header.opening.read (line ++ rest)).left .header u.close, rfl, ?_⟩
    simp only [readHeader, hsplit, happend]
  | ok result =>
    obtain ⟨name, as⟩ := result
    rw [houtcome] at happend
    have hleft : (Header.opening.read (line ++ rest)).left .header u.close = passLineEnd rest := by
      have hend := (Reading.outcome_eq_ok_iff.mp happend).1
      have hall := (Place.endsDeclaration_stop_iff _ hline hrest hclose).mp hend
      rw [Reading.left, happend, Place.read_append _ hrest, hall, List.nil_append]
    refine Or.inr ⟨name, as, passLineEnd rest, rfl, ?_, endedLines_passLineEnd u.close rest,
      (passLineEnd_suffix rest).trans hsuffix⟩
    simp only [readHeader, hsplit, happend, hleft, hspan]

/-- Where there is no line, no network is kept that was not before. -/
theorem network_build_of_nil (u : Session) (hfile : ∀ w ∈ u.words, w.kind ≠ .endOfFile)
    (hlines : endedLines u.close [] u.words = []) : u.build.network = u.network := by
  obtain ⟨f, ws, -, hread⟩ := u.readHeader_of_nil hfile hlines
  rw [build_of_none hread]
  rfl

/-- **All lines.** The first declares the network, and the others are entered into its store one
after the other; or it does not, and no network is kept that was not before. -/
theorem build_by_line (u : Session) (hclose : u.close.kind.endsDeclaration = true)
    (hfile : ∀ w ∈ u.words, w.kind ≠ .endOfFile) {first : Line} {others : List Line}
    (hlines : endedLines u.close [] u.words = first :: others)
    (hlimit : u.options.maxErrors = none ∨ u.build.report.errorCount = u.report.errorCount) :
    (∃ f, (Header.opening.read first.words).outcome first.stop = .error f ∧
        u.build.network = u.network ∧ u.build.report = u.report.append [f.diagnostic]) ∨
      ∃ name as, (Header.opening.read first.words).outcome first.stop = .ok (name, as) ∧
        u.build.network = some ⟨name.text, as, (Header.opening.read first.words).span first.stop,
          (Store.empty.enterLines u.options.boundsCheck others).2⟩ ∧
        u.build.report =
          u.report.append (Store.empty.enterLines u.options.boundsCheck others).1 := by
  rcases u.readHeader_by_line hclose hfile hlines with
    ⟨f, ws, houtcome, hread⟩ | ⟨name, as, ws, houtcome, hread, hothers, hsuffix⟩
  · rw [build_of_none hread]
    exact Or.inl ⟨f, houtcome, rfl, rfl⟩
  · let t := u.goTo ws
    rw [build_of_some hread] at hlimit ⊢
    have hbehind : ∀ w ∈ t.words, w.kind ≠ .endOfFile := fun w hw => hfile w (hsuffix.subset hw)
    obtain ⟨hstore, hreport⟩ := t.readDeclarations_by_line .empty hbehind hlimit
    have hrest : endedLines t.close [] t.words = others := hothers
    rw [hrest] at hstore hreport
    refine Or.inr ⟨name, as, houtcome, ?_, hreport⟩
    exact congrArg (fun store => some (System.mk name.text as _ store)) hstore

end Session

-- ============================================================================
-- Texts
-- ============================================================================

/-- What is said about lines of which the first has to declare the network. -/
def linesSay (check : BoundsCheck) (first : Line) (others : List Line) : List Diagnostic :=
  match (Header.opening.read first.words).outcome first.stop with
  | .error f => [f.diagnostic]
  | .ok _ => (Store.empty.enterLines check others).1

/-- The first line of words that are left, and an empty one if there is none. -/
def Session.firstLine (u : Session) : Line := (endedLines u.close [] u.words).headD ⟨[], u.close⟩

/-- What holds of an empty line and of all lines that are left holds of the first one. -/
theorem Session.forall_firstLine (u : Session) {P : Line → Prop} (hnil : P ⟨[], u.close⟩)
    (hall : ∀ l ∈ endedLines u.close [] u.words, P l) : P u.firstLine := by
  rw [firstLine]
  cases hlines : endedLines u.close [] u.words with
  | nil => exact hnil
  | cons first others => exact hall first (hlines ▸ List.mem_cons_self)

/-- **What is said about words**, if there is no limit on errors. -/
theorem Session.report_read (u : Session) (hclose : u.close.kind.endsDeclaration = true)
    (hfile : ∀ w ∈ u.words, w.kind ≠ .endOfFile) (hlimit : u.options.maxErrors = none) :
    u.read.2.report = u.report.append
      (linesSay u.options.boundsCheck u.firstLine (endedLines u.close [] u.words).tail) := by
  obtain ⟨-, -, -, -, hreport⟩ := u.says_read
  rw [hreport, firstLine, linesSay]
  cases hlines : endedLines u.close [] u.words with
  | nil =>
    obtain ⟨f, ws, houtcome, hread⟩ := u.readHeader_of_nil hfile hlines
    rw [List.headD_nil, houtcome, build_of_none hread]
    rfl
  | cons first others =>
    rw [List.headD_cons]
    rcases u.build_by_line hclose hfile hlines (Or.inl hlimit) with
      ⟨f, houtcome, -, hsaid⟩ | ⟨name, as, houtcome, -, hsaid⟩
    · rw [houtcome, hsaid]
    · rw [houtcome, hsaid]
      rfl

/-- **What is said about a text**, if there is no limit on errors. -/
theorem diagnostics_parse {source : String} {options : Options} (hlimit : options.maxErrors = none)
    {first : Line} {others : List Line} (hlines : linesOf source.toList = first :: others) :
    (parse source options).diagnostics = linesSay options.boundsCheck first others := by
  let u := Session.new (Token.scan source) (.ofText source) options .empty
  have hlines : endedLines u.close [] u.words = first :: others := hlines
  have hreport := u.report_read rfl (kind_ne_of_mem_wordsOf source.toList) hlimit
  rw [Session.firstLine, hlines] at hreport
  show u.read.2.report.entries = _
  rw [hreport, Report.entries_append]
  rfl

/-- **What a network is read from.** The first line of its text declares it, and the others were
entered into its store without an error. -/
theorem lines_of_parse {source : String} {options : Options} {n : System}
    (h : (parse source options).system = some n) :
    ∃ first others, linesOf source.toList = first :: others ∧
      n.store = (Store.empty.enterLines options.boundsCheck others).2 ∧
      ∀ d ∈ (Store.empty.enterLines options.boundsCheck others).1, d.isError = false := by
  let u := Session.new (Token.scan source) (.ofText source) options .empty
  have hfile : ∀ w ∈ u.words, w.kind ≠ .endOfFile := kind_ne_of_mem_wordsOf source.toList
  obtain ⟨hnetwork, hcount⟩ := Session.build_of_read (s := u) h
  have hclean : u.build.report.errorCount = 0 := by
    obtain ⟨ds, hbuild, -⟩ := u.says_build
    rw [Session.errorCount, hbuild.earlierErrors] at hcount
    exact hcount
  cases hlines : endedLines u.close [] u.words with
  | nil =>
    have hnone : u.build.network = none := u.network_build_of_nil hfile hlines
    exact absurd (hnetwork.symm.trans hnone) (by simp)
  | cons first others =>
    rcases u.build_by_line rfl hfile hlines (Or.inr hclean) with
      ⟨f, -, hnone, -⟩ | ⟨name, as, -, hsome, hreport⟩
    · have hnone : u.build.network = none := hnone
      exact absurd (hnetwork.symm.trans hnone) (by simp)
    · obtain rfl := Option.some.inj (hnetwork.symm.trans hsome)
      refine ⟨first, others, hlines, rfl, fun d hd => ?_⟩
      rw [hreport, Report.errorCount_append] at hclean
      have hnone := List.countP_eq_zero.mp (Nat.add_eq_zero_iff.mp hclean).2 d hd
      rwa [Bool.not_eq_true] at hnone

end TimedNet
