/-
  TimedNet.Proofs.Session.SyntaxErrors

  Syntax errors go with the lines that the grammar does not derive, one with each and in order. A
  line is entered without looking at the next (`enter_line`), so the loop over the declarations
  gives every line its diagnostics (`readDeclarations_lines`).
-/
import TimedNet.Proofs.Grammar.LineReading
import TimedNet.Proofs.Session.Semantic
import TimedNet.Proofs.Session.Verdict

namespace TimedNet

/-- The diagnostics that are about syntax. -/
def syntaxErrors (ds : List Diagnostic) : List Diagnostic := ds.filter Diagnostic.isSyntactic

/-- A fault is in a line of a text if it is found at a word of the line, or right behind it. -/
def Fault.IsIn (text line : List Word) (f : Fault) : Prop :=
  f.found ∈ line ∨ line ++ [f.found] <:+: text

/-- What is said about a line: a declaration has no syntax error, any other line has one. -/
def Diagnosed (text line : List Word) (found : List Diagnostic) : Prop :=
  (kinds line ∈ Pattern.declaration.matches' → syntaxErrors found = []) ∧
    (kinds line ∉ Pattern.declaration.matches' →
      ∃ f : Fault, syntaxErrors found = [f.diagnostic] ∧ f.IsIn text line)

theorem Fault.IsIn.mono {text text' line : List Word} {f : Fault} (h : f.IsIn text line)
    (htext : text <:+: text') : f.IsIn text' line :=
  h.imp id fun hin => hin.trans htext

theorem Diagnosed.mono {text text' line : List Word} {found : List Diagnostic}
    (h : Diagnosed text line found) (htext : text <:+: text') : Diagnosed text' line found := by
  refine ⟨h.1, fun hline => ?_⟩
  obtain ⟨f, hf, hin⟩ := h.2 hline
  exact ⟨f, hf, hin.mono htext⟩

theorem infix_concat {ws vs : List Word} (h : ws <:+ vs) (close : Word) :
    ws ++ [close] <:+: vs ++ [close] := by
  obtain ⟨front, rfl⟩ := h
  exact ⟨front, [], by simp⟩

-- ============================================================================
-- One line
-- ============================================================================

theorem syntaxErrors_eq_nil {ds : List Diagnostic} (h : ∀ d ∈ ds, d.isSyntactic = false) :
    syntaxErrors ds = [] := by
  rw [syntaxErrors, List.filter_eq_nil_iff]
  intro d hd
  simp [h d hd]

theorem syntaxErrors_append (ds es : List Diagnostic) :
    syntaxErrors (ds ++ es) = syntaxErrors ds ++ syntaxErrors es := List.filter_append _ _

/-- What is said about the parts of a line. -/
theorem syntaxErrors_notes (s : Store) (parts : List Part) :
    syntaxErrors (parts.filterMap (Part.fault? s)) = [] := by
  refine syntaxErrors_eq_nil fun d hd => ?_
  obtain ⟨part, -, hpart⟩ := List.mem_filterMap.mp hd
  exact (Part.isSemantic_of_fault hpart).2

namespace Store

variable (check : BoundsCheck) (s : Store)

/-- What is said about a declaration that could be read. -/
theorem enter_diagnostics_of_ok {close : Word} {ws : List Word} {result : Phrase × Attributes}
    (h : (Phrase.opening.read ws).outcome close = .ok result) :
    syntaxErrors (s.enter check close ws).diagnostics = [] := by
  obtain ⟨phrase, attributes⟩ := result
  simp only [enter, h]
  split
  · next d hd =>
    have hcode := (isSemantic_accept _ _ _ d hd).2
    rw [syntaxErrors_append, syntaxErrors_notes, List.nil_append]
    exact syntaxErrors_eq_nil (by simpa using hcode)
  · next a ha =>
    rw [syntaxErrors_append, syntaxErrors_notes, List.nil_append]
    refine syntaxErrors_eq_nil fun w hw => ?_
    exact (isWarning_of_accept ha (Option.mem_toList.mp hw)).2

/-- What is said about words that are no declaration. -/
theorem enter_diagnostics_of_error {close : Word} {ws : List Word} {f : Fault}
    (h : (Phrase.opening.read ws).outcome close = .error f) :
    syntaxErrors (s.enter check close ws).diagnostics = [f.diagnostic] := by
  have hcode := f.isSyntactic_diagnostic
  simp only [enter, h]
  rw [syntaxErrors_append, syntaxErrors_notes, List.nil_append]
  simp [syntaxErrors, hcode]

/-- **One line.** It is diagnosed on its own, and the lines that are left are those behind it. -/
theorem enter_line {line rest : List Word} {close : Word} (hline : InLine line)
    (hrest : AtLineEnd rest) (hclose : close.kind.endsDeclaration = true) :
    lines (s.enter check close (line ++ rest)).rest = lines rest ∧
      (s.enter check close (line ++ rest)).rest <:+ line ++ rest ∧
      Diagnosed (line ++ rest ++ [close]) line (s.enter check close (line ++ rest)).diagnostics := by
  have hleft := Phrase.opening.left_of_line (c := .start) rfl hline hrest close
  rw [enter_rest]
  refine ⟨?_, ?_, fun hmem => ?_, fun hmem => ?_⟩
  · rcases hleft with hleft | hleft
    · rw [hleft, lines_passLineEnd]
    · rw [hleft]
  · rcases hleft with hleft | hleft
    · rw [hleft]
      exact (passLineEnd_suffix rest).trans (List.suffix_append line rest)
    · rw [hleft]
      exact List.suffix_append line rest
  · rw [← remaining_declaration] at hmem
    obtain ⟨⟨result, hresult⟩, -⟩ :=
      Place.outcome_of_mem distinct_declaration hline hrest hclose hmem
    exact s.enter_diagnostics_of_ok check hresult
  · rw [← remaining_declaration] at hmem
    obtain ⟨f, hf, hfound⟩ := Place.outcome_of_notMem distinct_declaration hline hrest hclose hmem
    refine ⟨f, s.enter_diagnostics_of_error check hf, hfound.imp id ?_⟩
    intro hbehind
    rw [hbehind, List.append_assoc]
    cases rest with
    | nil => exact List.infix_refl _
    | cons e rest => exact ⟨[], rest ++ [close], by simp⟩

end Store

-- ============================================================================
-- The loop over the declarations
-- ============================================================================

namespace Session

/-- **Line by line.** Without a limit on errors, the loop goes over all lines and diagnoses each. -/
theorem readDeclarations_lines (s : Session) (store : Store) (hmax : s.options.maxErrors = none)
    (hclose : s.close.kind = .endOfFile) (hfile : ∀ w ∈ s.words, w.kind ≠ .endOfFile) :
    ∃ found : List (List Diagnostic),
      (s.readDeclarations store).2.report = s.report.append found.flatten ∧
        (s.readDeclarations store).2.isFatal = s.isFatal ∧
        List.Forall₂ (Diagnosed (s.words ++ [s.close])) (lines s.words) found := by
  induction s, store using readDeclarations.induct with
  | case1 s store hs =>
    rw [readDeclarations_of_nil store hs, ← lines_skipLineEnds, hs]
    exact ⟨[], rfl, rfl, .nil⟩
  | case2 s store w ws hs hw =>
    have hmem : w ∈ skipLineEnds s.words := by rw [hs]; exact List.mem_cons_self
    exact absurd hw (hfile w (List.dropWhile_subset _ hmem))
  | case3 s store w ws hs hw entry next hover =>
    exact absurd hover (not_isOverLimit_of_none hmax)
  | case4 s store w ws hs hw entry next hover ih =>
    have hskip : w :: ws <:+ s.words := hs ▸ List.dropWhile_suffix _
    obtain ⟨line, rest, hsplit, hline, hrest⟩ :=
      exists_line (w :: ws) fun v hv => hfile v (hskip.subset hv)
    have hne : line ≠ [] := by
      rintro rfl
      have hend : w.isLineEnd = true := hrest w (by rw [← List.nil_append rest, ← hsplit]; rfl)
      exact absurd hend (by simp [not_isLineEnd_of_skipLineEnds hs])
    have hlines : lines s.words = line :: lines rest := by
      rw [← lines_skipLineEnds, hs, hsplit, lines_append hne hline hrest]
    obtain ⟨hleft, hsuffix, hdiagnosed⟩ := store.enter_line s.options.boundsCheck hline hrest
      (show s.close.kind.endsDeclaration = true by rw [hclose]; rfl)
    rw [← hsplit] at hleft hsuffix hdiagnosed
    -- what is left is a part of the same text, so a fault behind is one in it
    have hhere : w :: ws ++ [s.close] <:+: s.words ++ [s.close] := infix_concat hskip s.close
    have hbehind : entry.rest ++ [s.close] <:+: s.words ++ [s.close] :=
      infix_concat (hsuffix.trans hskip) s.close
    obtain ⟨found, hreport, hfatal, hfound⟩ :=
      ih hmax hclose fun v hv => hfile v (hskip.subset (hsuffix.subset hv))
    rw [readDeclarations_of_not_over hs hw rfl rfl hover]
    refine ⟨entry.diagnostics :: found, ?_, hfatal, ?_⟩
    · rw [hreport, List.flatten_cons, Report.append_append]
      rfl
    · rw [hlines]
      refine .cons (hdiagnosed.mono hhere) ?_
      rw [← hleft]
      exact hfound.imp fun _ _ h => h.mono hbehind

-- ============================================================================
-- The declaration of the network
-- ============================================================================

/-- The first line that is not blank, if there is one, and what follows. -/
theorem exists_firstLine (ws : List Word) (hfile : ∀ w ∈ ws, w.kind ≠ .endOfFile) :
    ∃ line rest, skipLineEnds ws = line ++ rest ∧ InLine line ∧ AtLineEnd rest ∧
      ((line = [] ∧ lines ws = []) ∨ lines ws = line :: lines rest) := by
  have hskip : skipLineEnds ws <:+ ws := List.dropWhile_suffix _
  obtain ⟨line, rest, hsplit, hline, hrest⟩ :=
    exists_line (skipLineEnds ws) fun w hw => hfile w (hskip.subset hw)
  refine ⟨line, rest, hsplit, hline, hrest, ?_⟩
  rw [← lines_skipLineEnds, hsplit]
  by_cases hne : line = []
  · subst hne
    cases rest with
    | nil => exact Or.inl ⟨rfl, rfl⟩
    | cons e rest =>
      have hend : e.isLineEnd = true := hrest e rfl
      exact absurd hend (by simp [not_isLineEnd_of_skipLineEnds hsplit])
  · exact Or.inr (lines_append hne hline hrest)

/-- A first line that is as the grammar has it declares the network. -/
theorem readHeader_of_mem {s : Session} (hclose : s.close.kind = .endOfFile)
    (hfile : ∀ w ∈ s.words, w.kind ≠ .endOfFile) {first : List Word} {others : List (List Word)}
    (hlines : lines s.words = first :: others) (hfirst : kinds first ∈ Pattern.header.matches') :
    ∃ network rest, s.readHeader = (some network, s.goTo rest) ∧ lines rest = others ∧
      rest <:+ s.words := by
  obtain ⟨line, rest, hsplit, hline, hrest, ⟨-, hnone⟩ | hsome⟩ := exists_firstLine s.words hfile
  · exact absurd (hnone.symm.trans hlines) (by simp)
  · obtain ⟨rfl, rfl⟩ := List.cons.inj (hsome.symm.trans hlines)
    rw [← remaining_header] at hfirst
    obtain ⟨⟨⟨name, attributes⟩, houtcome⟩, hleft⟩ :=
      Place.outcome_of_mem distinct_header hline hrest (by rw [hclose]; rfl) hfirst
    refine ⟨.new name.text attributes ((Header.opening.read (line ++ rest)).span s.close),
      passLineEnd rest, ?_, lines_passLineEnd rest, ?_⟩
    · simp [readHeader, hsplit, houtcome, Reading.left, hleft]
    · have hbehind : rest <:+ skipLineEnds s.words := hsplit ▸ List.suffix_append line rest
      exact ((passLineEnd_suffix rest).trans hbehind).trans (List.dropWhile_suffix _)

/-- Without such a line the session gives up, with one fault. -/
theorem readHeader_of_notMem {s : Session} (hclose : s.close.kind = .endOfFile)
    (hfile : ∀ w ∈ s.words, w.kind ≠ .endOfFile)
    (hfirst : ∀ first ∈ (lines s.words).head?, kinds first ∉ Pattern.header.matches') :
    ∃ f rest, s.readHeader = (none, ((s.say [Fault.diagnostic f]).goTo rest).giveUp) := by
  obtain ⟨line, rest, hsplit, hline, hrest, hlines⟩ := exists_firstLine s.words hfile
  have hnotMem : kinds line ∉ Header.opening.remaining := by
    rcases hlines with ⟨rfl, -⟩ | hsome
    · intro hnil
      exact absurd ((Place.nil_mem_remaining _).mp hnil) (by decide)
    · rw [remaining_header]
      exact hfirst line (by rw [hsome]; rfl)
  obtain ⟨f, houtcome, -⟩ :=
    Place.outcome_of_notMem distinct_header hline hrest (by rw [hclose]; rfl) hnotMem
  refine ⟨f, (Header.opening.read (line ++ rest)).left .header s.close, ?_⟩
  simp [readHeader, hsplit, houtcome]

-- ============================================================================
-- Whole texts
-- ============================================================================

/-- The syntax errors of lines that were diagnosed are those of the lines that are no declaration.
-/
theorem forall₂_syntaxErrors {text : List Word} {ls : List (List Word)}
    {found : List (List Diagnostic)} (h : List.Forall₂ (Diagnosed text) ls found) :
    List.Forall₂ (fun line d => ∃ f : Fault, d = f.diagnostic ∧ f.IsIn text line)
      (ls.filter fun line => kinds line ∉ Pattern.declaration.matches')
      (syntaxErrors found.flatten) := by
  induction h with
  | nil => exact .nil
  | @cons line ds ls found hline _ ih =>
    rw [List.flatten_cons, syntaxErrors_append]
    by_cases hmem : kinds line ∈ Pattern.declaration.matches'
    · rw [hline.1 hmem, List.filter_cons_of_neg (by simpa using hmem)]
      exact ih
    · obtain ⟨f, hf, hin⟩ := hline.2 hmem
      rw [hf, List.filter_cons_of_pos (by simpa using hmem)]
      exact .cons ⟨f, rfl, hin⟩ ih

/-- A text whose first line does not declare the network. -/
theorem read_of_notMem {s : Session} (hclose : s.close.kind = .endOfFile)
    (hfile : ∀ w ∈ s.words, w.kind ≠ .endOfFile)
    (hfirst : ∀ first ∈ (lines s.words).head?, kinds first ∉ Pattern.header.matches') :
    ∃ f : Fault, s.read.2.report = s.report.append [f.diagnostic] ∧ s.read.2.isFatal = true ∧
      s.read.1 = none := by
  obtain ⟨f, rest, hheader⟩ := readHeader_of_notMem hclose hfile hfirst
  have hbuild : s.build = ((s.say [f.diagnostic]).goTo rest).giveUp := by
    rw [build, hheader]
  have hfatal : s.build.isFatal = true := by rw [hbuild]; rfl
  refine ⟨f, ?_, ?_, ?_⟩ <;> simp only [read, hfatal, Bool.true_or, if_true]
  rw [hbuild]
  rfl

/-- A text whose first line declares the network. -/
theorem read_of_mem {s : Session} (hnew : s.isFatal = false) (hmax : s.options.maxErrors = none)
    (hclose : s.close.kind = .endOfFile) (hfile : ∀ w ∈ s.words, w.kind ≠ .endOfFile)
    {first : List Word} {others : List (List Word)} (hlines : lines s.words = first :: others)
    (hfirst : kinds first ∈ Pattern.header.matches') :
    ∃ found : List (List Diagnostic), s.read.2.report = s.report.append found.flatten ∧
      s.read.2.isFatal = false ∧ List.Forall₂ (Diagnosed (s.words ++ [s.close])) others found := by
  obtain ⟨network, rest, hheader, hrest, hsuffix⟩ := readHeader_of_mem hclose hfile hlines hfirst
  obtain ⟨found, hreport, hfatal, hfound⟩ :=
    (s.goTo rest).readDeclarations_lines .empty hmax hclose fun w hw => hfile w (hsuffix.subset hw)
  obtain ⟨-, -, -, hreadFatal, hreadReport⟩ := s.says_read
  rw [hreadFatal, hreadReport, build, hheader]
  refine ⟨found, hreport, hfatal.trans hnew, ?_⟩
  have htext : lines (s.goTo rest).words = others := hrest
  rw [htext] at hfound
  exact hfound.imp fun _ _ h => h.mono (infix_concat hsuffix s.close)

/-- A text without a syntax error has the declaration of the network on its first line and another
declaration on each of the others. -/
theorem syntaxErrors_read_eq_nil_iff {s : Session} (hreport : s.report = .empty)
    (hnew : s.isFatal = false) (hmax : s.options.maxErrors = none)
    (hclose : s.close.kind = .endOfFile) (hfile : ∀ w ∈ s.words, w.kind ≠ .endOfFile) :
    syntaxErrors s.read.2.report.entries = [] ↔
      ∃ first others, lines s.words = first :: others ∧ kinds first ∈ Pattern.header.matches' ∧
        ∀ line ∈ others, kinds line ∈ Pattern.declaration.matches' := by
  by_cases hfirst : ∀ first ∈ (lines s.words).head?, kinds first ∉ Pattern.header.matches'
  · obtain ⟨f, hread, -, -⟩ := read_of_notMem hclose hfile hfirst
    have hsyntax : syntaxErrors [f.diagnostic] = [f.diagnostic] := by
      simp [syntaxErrors, f.isSyntactic_diagnostic]
    rw [hread, hreport, Report.entries_append]
    refine iff_of_false (by simp [Report.empty, hsyntax]) ?_
    rintro ⟨first, others, hlines, hheader, -⟩
    exact hfirst first (by rw [hlines]; rfl) hheader
  · push Not at hfirst
    obtain ⟨first, hmem, hheader⟩ := hfirst
    obtain ⟨others, hlines⟩ := List.head?_eq_some_iff.mp hmem
    obtain ⟨found, hread, -, hfound⟩ := read_of_mem hnew hmax hclose hfile hlines hheader
    have hlength := (forall₂_syntaxErrors hfound).length_eq
    rw [hread, hreport, Report.entries_append, ← List.length_eq_zero_iff]
    show (syntaxErrors found.flatten).length = 0 ↔ _
    rw [← hlength, List.length_eq_zero_iff, List.filter_eq_nil_iff]
    constructor
    · intro hall
      exact ⟨first, others, hlines, hheader, fun line hline => by simpa using hall line hline⟩
    · rintro ⟨first', others', hlines', -, hall⟩ line hline
      obtain ⟨-, rfl⟩ := List.cons.inj (hlines.symm.trans hlines')
      simpa using hall line hline

/-- **Exact grammar and exact recovery.** Tokens without a limit on errors are read line by line.
Unless the first line that is not blank declares the network, there is one syntax error, the session
gives up and there is no network. Otherwise it does not give up, every other line that the grammar
derives is said to have no syntax error and every one that it does not derive has exactly one, at a
word of the line or right behind it; so the syntax errors go with the malformed lines, in order.
There is no syntax error exactly if the tokens are a text of the grammar. -/
theorem syntaxErrors_of_lines (ts : List Token) (hfile : ∀ t ∈ ts, t.kind ≠ .endOfFile)
    (index : LineIndex) (options : Options) (hmax : options.maxErrors = none) :
    let s := new ts index options .empty
    let text := s.words ++ [s.close]
    let ds := s.read.2.report.entries
    ((∀ first ∈ (lines s.words).head?, kinds first ∉ Pattern.header.matches') →
      (∃ f : Fault, ds = [f.diagnostic] ∧ f.diagnostic.isSyntactic = true) ∧
        s.read.2.isFatal = true ∧ s.read.1 = none) ∧
    (∀ first others, lines s.words = first :: others →
      kinds first ∈ Pattern.header.matches' →
        s.read.2.isFatal = false ∧
        (∃ found, ds = found.flatten ∧ List.Forall₂ (Diagnosed text) others found) ∧
        List.Forall₂ (fun line d => ∃ f : Fault, d = f.diagnostic ∧ f.IsIn text line)
          (others.filter fun line => kinds line ∉ Pattern.declaration.matches')
          (syntaxErrors ds)) ∧
    (syntaxErrors ds = [] ↔
      ts.map Token.kind ∈ Pattern.system.matches' ∨
        ts.map Token.kind ++ [.endOfFile] ∈ Pattern.system.matches') := by
  intro s text ds
  have hwords : ∀ w ∈ s.words, w.kind ≠ .endOfFile := by
    intro w hw
    obtain ⟨t, ht, rfl⟩ := List.mem_map.mp hw
    exact hfile t ht
  refine ⟨fun hfirst => ?_, fun first others hlines hfirst => ?_, ?_⟩
  · obtain ⟨f, hreport, hfatal, hnone⟩ := read_of_notMem rfl hwords hfirst
    refine ⟨⟨f, ?_, f.isSyntactic_diagnostic⟩, hfatal, hnone⟩
    show s.read.2.report.entries = _
    rw [hreport, Report.entries_append]
    rfl
  · obtain ⟨found, hreport, hfatal, hfound⟩ := read_of_mem rfl hmax rfl hwords hlines hfirst
    have hds : ds = found.flatten := by
      show s.read.2.report.entries = _
      rw [hreport, Report.entries_append]
      rfl
    refine ⟨hfatal, ⟨found, hds, hfound⟩, ?_⟩
    rw [hds]
    exact forall₂_syntaxErrors hfound
  · have hkinds : kinds s.words = ts.map Token.kind := List.map_map
    rw [syntaxErrors_read_eq_nil_iff rfl rfl hmax rfl hwords, ← hkinds,
      mem_system_iff (by simpa [kinds] using hwords), ← map_kinds_lines]
    constructor
    · rintro ⟨first, others, hlines, hheader, hall⟩
      exact ⟨_, _, by rw [hlines]; rfl, hheader, by simpa using hall⟩
    · rintro ⟨head, tail, hcut, hhead, hall⟩
      obtain ⟨first, others, hlines, rfl, rfl⟩ := List.map_eq_cons_iff.mp hcut
      exact ⟨first, others, hlines, hhead, by simpa using hall⟩

/-- Two of five lines are malformed, and the last ends with the text. -/
def malformedSample : List Token :=
  [.endOfLine, .keyword .system, .colon, .ident, .endOfLine,
    .keyword .clock, .colon, .integer, .colon, .ident, .endOfLine,
    .ident, .colon, .endOfLine, .endOfLine,
    .keyword .event, .ident, .endOfLine,
    .keyword .sync, .colon, .ident, .atSign, .ident, .question, .lBrace, .ident, .colon,
    .rBrace].map fun k => ⟨k, "x", 0, 1⟩

theorem syntaxErrors_of_lines_malformedSample :
    (∀ t ∈ malformedSample, t.kind ≠ .endOfFile) ∧ ({} : Options).maxErrors = none ∧
      (new malformedSample ⟨[], 1⟩ {} .empty).read.2.isFatal = false ∧
      (syntaxErrors (new malformedSample ⟨[], 1⟩ {} .empty).read.2.report.entries).length = 2 := by
  have hfile : ∀ t ∈ malformedSample, t.kind ≠ .endOfFile := by decide
  have hlines := syntaxErrors_of_lines malformedSample hfile ⟨[], 1⟩ {} rfl
  obtain ⟨hfatal, -, herrors⟩ := hlines.2.1 _ _ rfl (by decide)
  exact ⟨hfile, rfl, hfatal, herrors.length_eq.symm.trans (by decide)⟩

end Session

end TimedNet
