/-
  TimedNet.Proofs.Session.EarliestFault

  Syntax errors are found as early as they can be, and say exactly what could stand there instead.
  Each line is read up to the first word with which no declaration goes on, so the syntax errors
  that a session tells of are the exact faults of the malformed lines, one for each and in order.
-/
import TimedNet.Proofs.Grammar.Expected
import TimedNet.Proofs.Session.ByLine
import TimedNet.Proofs.Session.SyntaxErrors

namespace TimedNet

/-- The diagnostic of a fault that is exact for a line of a rule. -/
def Line.HasExactFault (rule : Language TokenKind) (opens : List Keyword) (l : Line)
    (d : Diagnostic) : Prop :=
  ∃ (f : Fault) (before : List Word), d = f.diagnostic ∧ f.IsExact rule opens l before

-- ============================================================================
-- One line
-- ============================================================================

section Lines

variable {l : Line} (hl : l.IsEnded)

include hl

/-- A line that is not as the rules have it has one fault, and that is exact. -/
theorem exists_exact_of_notMem {α : Type} {p : Place α} (hp : p.Distinct) {opens : List Keyword}
    (hopens : p.expected = opens.map .keyword) (hviable : ∃ ks, ks ∈ p.remaining)
    (hmem : kinds l.words ∉ p.remaining) :
    ∃ f, (p.read l.words).outcome l.stop = .error f ∧
      l.HasExactFault p.remaining opens f.diagnostic := by
  cases houtcome : (p.read l.words).outcome l.stop with
  | ok result => exact absurd ((Place.exists_ok_iff hp hl.1 hl.2).mp ⟨result, houtcome⟩) hmem
  | error f =>
    exact ⟨f, rfl, f, _, rfl, Place.isExact_of_outcome hp hopens hviable hl.1 hl.2 houtcome⟩

/-- A first line that does not declare the network has an exact fault. -/
theorem exists_exact_header (hmem : kinds l.words ∉ Pattern.header.matches') :
    ∃ f, (Header.opening.read l.words).outcome l.stop = .error f ∧
      l.HasExactFault Pattern.header.matches' [.system] f.diagnostic := by
  have hviable : ∃ ks, ks ∈ Header.opening.remaining :=
    ⟨[.keyword .system, .colon, .ident], by rw [remaining_header]; decide⟩
  rw [← remaining_header] at hmem ⊢
  exact exists_exact_of_notMem hl distinct_header rfl hviable hmem

/-- Another line that is no declaration has an exact fault. -/
theorem exists_exact_declaration (hmem : kinds l.words ∉ Pattern.declaration.matches') :
    ∃ f, (Phrase.opening.read l.words).outcome l.stop = .error f ∧
      l.HasExactFault Pattern.declaration.matches'
        [.clock, .edge, .event, .int, .location, .process, .sync] f.diagnostic := by
  have hviable : ∃ ks, ks ∈ Phrase.opening.remaining :=
    ⟨[.keyword .event, .colon, .ident], by rw [remaining_declaration]; decide⟩
  rw [← remaining_declaration] at hmem ⊢
  exact exists_exact_of_notMem hl distinct_declaration rfl hviable hmem

end Lines

-- ============================================================================
-- All lines
-- ============================================================================

/-- The syntax errors of lines are the exact faults of those that are no declaration, in order. -/
theorem Store.exact_enterLines (s : Store) (check : BoundsCheck) {ls : List Line}
    (hls : ∀ l ∈ ls, l.IsEnded) :
    List.Forall₂
      (Line.HasExactFault Pattern.declaration.matches'
        [.clock, .edge, .event, .int, .location, .process, .sync])
      (ls.filter fun l => kinds l.words ∉ Pattern.declaration.matches')
      (syntaxErrors (s.enterLines check ls).1) := by
  induction ls generalizing s with
  | nil => exact .nil
  | cons l ls ih =>
    obtain ⟨hl, hls⟩ := List.forall_mem_cons.mp hls
    rw [enterLines, syntaxErrors_append]
    by_cases hmem : kinds l.words ∈ Pattern.declaration.matches'
    · have hok : kinds l.words ∈ Phrase.opening.remaining := by rwa [remaining_declaration]
      obtain ⟨result, houtcome⟩ := (Place.exists_ok_iff distinct_declaration hl.1 hl.2).mpr hok
      rw [s.enter_diagnostics_of_ok check houtcome,
        List.filter_cons_of_neg (by simpa using hmem)]
      exact ih _ hls
    · obtain ⟨f, houtcome, hexact⟩ := exists_exact_declaration hl hmem
      rw [s.enter_diagnostics_of_error check houtcome,
        List.filter_cons_of_pos (by simpa using hmem)]
      exact .cons hexact (ih _ hls)

namespace Session

theorem isEnded_firstLine {u : Session} (hclose : u.close.kind.endsDeclaration = true)
    (hfile : ∀ w ∈ u.words, w.kind ≠ .endOfFile) : u.firstLine.IsEnded := by
  refine u.forall_firstLine ⟨?_, hclose⟩ (isEnded_endedLines hclose hfile)
  simp [InLine]

/-- **Faults are found early and are exact.** Tokens without a limit on errors are read line by line,
whatever the report holds already. If the first line that is not blank does not declare the network,
all that is said is its exact fault; if there is no line at all, it is found at the end of the text.
Otherwise the syntax errors are the exact faults of the other lines that are no declaration, one for
each and in order: some line of the rule begins with the words before the fault, none goes on with
the word that is found, and the kinds that are listed are those with which one does. -/
theorem syntaxErrors_exact (ts : List Token) (hfile : ∀ t ∈ ts, t.kind ≠ .endOfFile)
    (index : LineIndex) (options : Options) (hmax : options.maxErrors = none) (report : Report) :
    let s := new ts index options report
    let others := (endedLines s.close [] s.words).tail
    ∃ ds, s.read.2.report = report.append ds ∧
      (kinds s.firstLine.words ∉ Pattern.header.matches' →
        ∃ d, ds = [d] ∧ d.isSyntactic = true ∧
          s.firstLine.HasExactFault Pattern.header.matches' [.system] d) ∧
      (kinds s.firstLine.words ∈ Pattern.header.matches' →
        List.Forall₂
          (Line.HasExactFault Pattern.declaration.matches'
            [.clock, .edge, .event, .int, .location, .process, .sync])
          (others.filter fun l => kinds l.words ∉ Pattern.declaration.matches')
          (syntaxErrors ds)) := by
  intro s others
  have hwords : ∀ w ∈ s.words, w.kind ≠ .endOfFile := by
    intro w hw
    obtain ⟨t, ht, rfl⟩ := List.mem_map.mp hw
    exact hfile t ht
  have hclose : s.close.kind.endsDeclaration = true := rfl
  have hfirst := isEnded_firstLine hclose hwords
  refine ⟨_, s.report_read hclose hwords hmax, fun hmem => ?_, fun hmem => ?_⟩
  · obtain ⟨f, houtcome, hexact⟩ := exists_exact_header hfirst hmem
    exact ⟨f.diagnostic, by rw [linesSay, houtcome], f.isSyntactic_diagnostic, hexact⟩
  · have hok : kinds s.firstLine.words ∈ Header.opening.remaining := by rwa [remaining_header]
    obtain ⟨result, houtcome⟩ :=
      (Place.exists_ok_iff distinct_header hfirst.1 hfirst.2).mpr hok
    rw [linesSay, houtcome]
    refine Store.exact_enterLines .empty _ fun l hl => ?_
    exact isEnded_endedLines hclose hwords l (List.mem_of_mem_tail hl)

/-- Two lines that are malformed each for a reason of its own: the second `:` is missing, and a key
has no `:` behind it. -/
def twoFaultsSample : List Token :=
  [.keyword .system, .colon, .ident, .endOfLine,
    .keyword .clock, .colon, .integer, .ident, .endOfLine,
    .keyword .event, .colon, .ident, .endOfLine,
    .keyword .process, .colon, .ident, .lBrace, .ident, .rBrace].map fun k => ⟨k, "x", 0, 1⟩

theorem syntaxErrors_exact_twoFaultsSample :
    (∀ t ∈ twoFaultsSample, t.kind ≠ .endOfFile) ∧ ({} : Options).maxErrors = none ∧
      ∃ ds, (new twoFaultsSample ⟨[], 1⟩ {} .empty).read.2.report = Report.empty.append ds ∧
        (syntaxErrors ds).length = 2 := by
  have hfile : ∀ t ∈ twoFaultsSample, t.kind ≠ .endOfFile := by decide
  obtain ⟨ds, hreport, -, hothers⟩ := syntaxErrors_exact twoFaultsSample hfile ⟨[], 1⟩ {} rfl .empty
  have hexact := hothers (by decide)
  exact ⟨hfile, rfl, ds, hreport, hexact.length_eq.symm.trans (by decide)⟩

end Session

end TimedNet
