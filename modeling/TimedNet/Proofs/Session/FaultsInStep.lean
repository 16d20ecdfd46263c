/-
  TimedNet.Proofs.Session.FaultsInStep

  The syntax errors of a text are in step with its scanner. Whatever the limit on errors, a session
  tells of no syntax error but the faults of its lines (`faults_read`). The first line is read as the
  declaration of the network and every other one as a declaration, each from outside of attribute
  lists, where the scanner is too when a line begins (`syntaxErrors_inStep`).
-/
import TimedNet.Proofs.Grammar.InStep
import TimedNet.Proofs.Session.ByLine
import TimedNet.Proofs.Session.SyntaxErrors

namespace TimedNet

-- ============================================================================
-- Syntax errors are faults of lines
-- ============================================================================

/-- What is said is one of some faults, unless it is no syntax error. -/
def IsFaultOf (faults : Line → Fault → Prop) (d : Diagnostic) : Prop :=
  d.isSyntactic = true → ∃ l f, faults l f ∧ d = f.diagnostic

theorem IsFaultOf.mono {P Q : Line → Fault → Prop} (hPQ : ∀ l f, P l f → Q l f) (d : Diagnostic)
    (h : IsFaultOf P d) : IsFaultOf Q d := by
  intro hd
  obtain ⟨l, f, hf, rfl⟩ := h hd
  exact ⟨l, f, hPQ l f hf, rfl⟩

/-- The fault of a declaration among lines. -/
def HasFaultIn (ls : List Line) (l : Line) (f : Fault) : Prop :=
  l ∈ ls ∧ (Phrase.opening.read l.words).outcome l.stop = .error f

theorem Store.faults_enter (s : Store) (check : BoundsCheck) {l : Line} {ls : List Line}
    (hl : l ∈ ls) : ∀ d ∈ (s.enter check l.stop l.words).diagnostics,
      IsFaultOf (HasFaultIn ls) d := by
  intro d hd hsyntactic
  have hmem : d ∈ syntaxErrors (s.enter check l.stop l.words).diagnostics :=
    List.mem_filter.mpr ⟨hd, hsyntactic⟩
  cases houtcome : (Phrase.opening.read l.words).outcome l.stop with
  | ok result =>
    rw [s.enter_diagnostics_of_ok check houtcome] at hmem
    exact absurd hmem List.not_mem_nil
  | error f =>
    rw [s.enter_diagnostics_of_error check houtcome] at hmem
    exact ⟨l, f, ⟨hl, houtcome⟩, List.mem_singleton.mp hmem⟩

namespace Session

/-- What is said about the first line that is left is a fault of it, and the lines behind it are
left. -/
theorem faults_first_line (u : Session) (s : Store)
    (hfile : ∀ w ∈ u.words, w.kind ≠ .endOfFile) {w : Word} {ws : List Word}
    (hs : skipLineEnds u.words = w :: ws) :
    let entry := s.enter u.options.boundsCheck u.close (w :: ws)
    SaysOnly (IsFaultOf (HasFaultIn (endedLines u.close [] u.words))) u
        ((u.say entry.diagnostics).goTo entry.rest) ∧
      (∀ l ∈ endedLines u.close [] entry.rest, l ∈ endedLines u.close [] u.words) ∧
      entry.rest <:+ u.words := by
  intro entry
  obtain ⟨l, hlines, hdiagnostics, -, hsuffix⟩ :=
    s.enter_first_line u.options.boundsCheck u.close hfile hs
  rw [hlines]
  refine ⟨⟨entry.diagnostics, (u.says_say _).goTo _, ?_⟩, fun m hm => List.mem_cons_of_mem l hm,
    hsuffix⟩
  rw [hdiagnostics]
  exact s.faults_enter _ List.mem_cons_self

/-- The loop over the lines, up to where there are too many errors. -/
theorem faults_readDeclarations (u : Session) (s : Store)
    (hfile : ∀ w ∈ u.words, w.kind ≠ .endOfFile) :
    SaysOnly (IsFaultOf (HasFaultIn (endedLines u.close [] u.words))) u
      (u.readDeclarations s).2 := by
  induction u, s using readDeclarations.induct with
  | case1 u s hs =>
    rw [readDeclarations_of_nil s hs]
    exact (SaysOnly.refl u).goTo _
  | case2 u s w ws hs hw =>
    rw [readDeclarations_of_cons s hs, if_pos hw]
    exact (SaysOnly.refl u).goTo _
  | case3 u s w ws hs hw entry next hover =>
    have hentry := u.faults_first_line s hfile hs
    have habort : ¬ ((Problem.tooManyErrors next.errorCount).diagnostic
        next.current.span).isSyntactic = true := Bool.false_ne_true
    rw [readDeclarations_of_over hs hw rfl rfl hover]
    exact hentry.1.trans (.abort fun hsyntactic => absurd hsyntactic habort)
  | case4 u s w ws hs hw entry next hover ih =>
    obtain ⟨hentry, hlater, hsuffix⟩ := u.faults_first_line s hfile hs
    have hmore := ih fun v hv => hfile v (hsuffix.subset hv)
    rw [readDeclarations_of_not_over hs hw rfl rfl hover]
    exact hentry.trans (hmore.imp (IsFaultOf.mono fun l f hf => ⟨hlater l hf.1, hf.2⟩))

/-- A fault of one of the lines that are left: the first one is read as the declaration of the
network, and every other one as a declaration. -/
def HasFault (u : Session) (l : Line) (f : Fault) : Prop :=
  l = u.firstLine ∧ (Header.opening.read l.words).outcome l.stop = .error f ∨
    HasFaultIn (endedLines u.close [] u.words).tail l f

/-- **One reading.** Each syntax error is the fault of a line. -/
theorem faults_read (u : Session) (hclose : u.close.kind.endsDeclaration = true)
    (hfile : ∀ w ∈ u.words, w.kind ≠ .endOfFile) :
    SaysOnly (IsFaultOf u.HasFault) u u.read.2 := by
  refine SaysOnly.read ?_
  cases hlines : endedLines u.close [] u.words with
  | nil =>
    obtain ⟨f, ws, houtcome, hread⟩ := u.readHeader_of_nil hfile hlines
    have hfirst : u.firstLine = ⟨[], u.close⟩ := by rw [firstLine, hlines, List.headD_nil]
    rw [build_of_none hread]
    exact SaysOnly.giveUp (fun _ => ⟨_, f, Or.inl ⟨hfirst.symm, houtcome⟩, rfl⟩) u ws
  | cons first others =>
    have hfirst : u.firstLine = first := by rw [firstLine, hlines, List.headD_cons]
    rcases u.readHeader_by_line hclose hfile hlines with
      ⟨f, ws, houtcome, hread⟩ | ⟨name, as, ws, -, hread, hothers, hsuffix⟩
    · rw [build_of_none hread]
      exact SaysOnly.giveUp (fun _ => ⟨_, f, Or.inl ⟨hfirst.symm, houtcome⟩, rfl⟩) u ws
    · have hmore := (u.goTo ws).faults_readDeclarations .empty
        fun w hw => hfile w (hsuffix.subset hw)
      have htail : endedLines u.close [] ws = (endedLines u.close [] u.words).tail := by
        rw [hothers, hlines, List.tail_cons]
      have hheader : SaysOnly (IsFaultOf u.HasFault) u (u.goTo ws) := (SaysOnly.refl u).goTo ws
      rw [build_of_some hread]
      refine hheader.trans (SaysOnly.keep (hmore.imp (IsFaultOf.mono fun l f hf => ?_)) _)
      exact Or.inr ⟨htail ▸ hf.1, hf.2⟩

end Session

-- ============================================================================
-- Faults are in step
-- ============================================================================

theorem hasOwnContext_header : Header.opening.HasOwnContext := by
  simp [Header.opening, Place.HasOwnContext, Header.rules, Rule.context]

theorem hasOwnContext_declaration : Phrase.opening.HasOwnContext := by
  simp [Phrase.opening, Place.HasOwnContext, Phrase.rules, Rule.context]

/-- A line that the scanner begins outside of attribute lists, where the grammar begins too. -/
theorem Place.inStep_opening {α : Type} {p : Place α} (hp : p.HasOwnContext)
    (hstage : p.stage = .before) {ws : List Word} (hws : Steered .outside (kinds ws)) :
    p.InStep [] ws := by
  refine ⟨hp, ?_, ?_⟩
  · rw [hstage]
    exact List.not_mem_nil
  · rw [hstage]
    exact hws

namespace Session

/-- **Scanner and grammar stay in step.** A text is scanned and read, with any options and whatever
the report holds already. Each syntax error is the fault of one of its lines, and in step with the
scanner: it is not found at a value; if it is a fault in an attribute list, not at a keyword; and
behind the `:` of a key, with or without a value, only at a `{` or the end of the line or text. -/
theorem syntaxErrors_inStep (source : String) (options : Options) (report : Report) :
    let s := new (Token.scan source) (.ofText source) options report
    ∃ ds, s.read.2.report = report.append ds ∧
      ∀ d ∈ syntaxErrors ds, ∃ l f before, s.HasFault l f ∧ d = f.diagnostic ∧
        f.IsInStep l before := by
  intro s
  have hclose : s.close.kind.endsDeclaration = true := rfl
  have hwords : ∀ w ∈ s.words, w.kind ≠ .endOfFile := kind_ne_of_mem_wordsOf source.toList
  have hlines : ∀ l ∈ endedLines s.close [] s.words,
      l.IsEnded ∧ Steered .outside (kinds l.words) := fun l hl =>
    ⟨isEnded_endedLines hclose hwords l hl, steered_linesOf source.toList l hl⟩
  have hnil : Line.IsEnded ⟨[], s.close⟩ := ⟨by simp [InLine], hclose⟩
  have hfirst := s.forall_firstLine ⟨hnil, trivial⟩ hlines
  obtain ⟨ds, hsays, hfaults⟩ := s.faults_read hclose hwords
  refine ⟨ds, hsays.report, fun d hd => ?_⟩
  obtain ⟨hmem, hsyntactic⟩ := List.mem_filter.mp hd
  obtain ⟨l, f, hfault, hdiagnostic⟩ := hfaults d hmem hsyntactic
  refine ⟨l, f, ?_⟩
  rcases hfault with ⟨rfl, houtcome⟩ | ⟨hl, houtcome⟩
  · obtain ⟨⟨hline, hstop⟩, hsteered⟩ := hfirst
    have hstep := Place.inStep_opening hasOwnContext_header rfl hsteered
    exact ⟨_, Or.inl ⟨rfl, houtcome⟩, hdiagnostic,
      Place.isInStep_of_outcome hstep hline hstop houtcome⟩
  · obtain ⟨⟨hline, hstop⟩, hsteered⟩ := hlines l (List.mem_of_mem_tail hl)
    have hstep := Place.inStep_opening hasOwnContext_declaration rfl hsteered
    exact ⟨_, Or.inr ⟨hl, houtcome⟩, hdiagnostic,
      Place.isInStep_of_outcome hstep hline hstop houtcome⟩

end Session

end TimedNet
