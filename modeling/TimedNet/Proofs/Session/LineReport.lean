/-
  TimedNet.Proofs.Session.LineReport

  What is said about one line. First there are notes, which are told from the words up to the first
  syntax error: a numeral that is out of range, or a link with a name that no line above declares.
  Then there is at most one more diagnostic, which is the syntax error if there is one, and otherwise
  what is said when the declaration is submitted (`Line.Reported`). A text is reported line by line
  (`diagnostics_of_line`).
-/
import TimedNet.Proofs.Grammar.Parts
import TimedNet.Proofs.Session.Conditions
import TimedNet.Proofs.Session.EarliestFault
import TimedNet.Proofs.Session.Rows
import TimedNet.Proofs.Session.WellFormed

namespace TimedNet

-- ============================================================================
-- Notes
-- ============================================================================

/-- What is to be said about a part: that a numeral is out of range, or that the process of a link
is not declared, or else its event. -/
def Part.note? (s : Store) : Part → Option Diagnostic
  | .size l =>
    match Numeral.unsigned l.text with
    | .ok _ => none
    | .error e => some { code := .unsignedRange, span := l.span, message := e.message }
  | .bound l =>
    match Numeral.signed l.text with
    | .ok _ => none
    | .error e => some { code := .signedRange, span := l.span, message := e.message }
  | .link owner label =>
    if ¬ s.Declares (.processes, owner.text) then
      some { code := .undeclaredProcess
             span := owner.span
             message := (Problem.undeclaredProcess owner.text).message }
    else if ¬ s.Declares (.events, label.text) then
      some { code := .undeclaredEvent
             span := label.span
             message := (Problem.undeclaredEvent label.text).message }
    else none

/-- The notes on the words that a declaration begins with, in order. -/
def Store.notesOn (s : Store) (ws : List Word) : List Diagnostic :=
  (partsAmong ws).filterMap (Part.note? s)

theorem Store.Reachable.fault?_eq_note? {s : Store} (hs : s.Reachable) (part : Part) :
    part.fault? s = part.note? s := by
  cases part with
  | size l =>
    rw [Part.fault?, Part.note?, Lexeme.size]
    cases Numeral.unsigned l.text <;> rfl
  | bound l =>
    rw [Part.fault?, Part.note?, Lexeme.bound]
    cases Numeral.signed l.text <;> rfl
  | link owner label =>
    have hends : complaint? (s.findEnds owner label) =
        (complaint? (s.findProcess owner)).or (complaint? (s.findEvent label)) :=
      complaint?_bind fun _ _ => complaint?_bind_pure
    rw [Part.fault?, hends, hs.complaint?_findProcess, hs.complaint?_findEvent, Part.note?]
    by_cases hp : s.Declares (.processes, owner.text) <;>
      by_cases he : s.Declares (.events, label.text) <;>
        simp [hp, he, Problem.diagnostic, Problem.code]

/-- **Notes.** What is said about the parts of a line are the notes on the words that were read. -/
theorem Store.Reachable.notes_eq {s : Store} (hs : s.Reachable) (ws : List Word) :
    (Phrase.opening.read ws).parts.filterMap (Part.fault? s) =
      s.notesOn (Phrase.opening.read ws).words := by
  rw [Phrase.parts_read_opening, notesOn]
  exact List.filterMap_congr fun part _ => hs.fault?_eq_note? part

/-- **What a diagnostic of a line tells.** It is a note on a part of the line, the fault of the line,
or it tells of a condition that fails or of bounds. -/
theorem Store.Reachable.tells_of_enter {check : BoundsCheck} {s : Store} (hs : s.Reachable)
    {close : Word} {ws : List Word} {d : Diagnostic}
    (h : d ∈ (s.enter check close ws).diagnostics) :
    (∃ part ∈ (Phrase.opening.read ws).parts, part.note? s = some d) ∨
    (∃ f, (Phrase.opening.read ws).outcome close = .error f ∧ d = f.diagnostic) ∨
    ∃ φ as, (Phrase.opening.read ws).outcome close = .ok (φ, as) ∧
      ((∃ c ∈ Draft.conditions ⟨φ.draft s, as, (Phrase.opening.read ws).span close⟩, c.Tells s d) ∨
        (φ.draft s).checkBounds check = .ok (some d)) := by
  rcases Store.cause_of_enter h with ⟨part, hpart, hfault⟩ | hfault |
    ⟨φ, as, houtcome, haccept | hbounds⟩
  · exact Or.inl ⟨part, hpart, (hs.fault?_eq_note? part).symm.trans hfault⟩
  · exact Or.inr (Or.inl hfault)
  · have hfirst := (hs.complaint?_accept check _).symm.trans (complaint?_eq_some_iff.mpr haccept)
    obtain ⟨c, hc, hfault⟩ := List.exists_of_findSome?_eq_some hfirst
    have htells := (c.holds_fault? hs check).2 d hfault
    exact Or.inr (Or.inr ⟨φ, as, houtcome, Or.inl ⟨c, hc, htells⟩⟩)
  · exact Or.inr (Or.inr ⟨φ, as, houtcome, Or.inr hbounds⟩)

-- ============================================================================
-- One line
-- ============================================================================

/-- What is said about a line in the store behind the lines above it. -/
inductive Line.Reported (check : BoundsCheck) (s : Store) (l : Line) : List Diagnostic → Prop
  /-- A line that is no declaration: the notes on the words before its fault, and its fault. -/
  | malformed {f : Fault} {before : List Word}
    (hline : kinds l.words ∉ Pattern.declaration.matches')
    (hexact : f.IsExact Pattern.declaration.matches'
      [.clock, .edge, .event, .int, .location, .process, .sync] l before) :
    Reported check s l (s.notesOn before ++ [f.diagnostic])
  /-- A declaration: the notes on its words, and what is said when it is submitted. -/
  | declared {φ : Phrase} {attributes : Attributes} {final : List Diagnostic}
    (hline : kinds l.words ∈ Pattern.declaration.matches')
    (hread : (Phrase.opening.read l.words).outcome l.stop = .ok (φ, attributes))
    (hsubmit : ∀ r, (s.submit check r
      ⟨φ.draft s, attributes, (Phrase.opening.read l.words).span l.stop⟩).report = r.append final)
    (hone : final.length ≤ 1)
    (hsync : l.words.head?.map Word.kind = some (.keyword .sync) → final = []) :
    Reported check s l (s.notesOn l.words ++ final)

namespace Store

variable {s : Store} {check : BoundsCheck}

theorem length_saidAbout_le (check : BoundsCheck) (s : Store) (d : Draft) :
    (s.saidAbout check d).length ≤ 1 := by
  unfold saidAbout
  split
  · exact Nat.le_refl 1
  · next a _ => cases a.warning <;> simp

/-- Nothing is said when a synchronization is submitted: what its links stand for was just found. -/
theorem Reachable.saidAbout_sync (hs : s.Reachable) (check : BoundsCheck) (links : List Link)
    (attributes : Attributes) (span : Span) :
    s.saidAbout check ⟨(Phrase.sync links).draft s, attributes, span⟩ = [] := by
  have hbounds : ((Phrase.sync links).draft s).checkBounds check = .ok none :=
    DraftItem.checkBounds_of_none rfl check
  have hresolves : s.fault? (.sync (links.filterMap fun l => (l.constraint s).toOption)) = none :=
    hs.fault?_sync_eq_none_iff.mpr (hs.resolves_of_links links)
  rw [saidAbout, accept_of_resolve rfl hbounds, hresolves]
  rfl

/-- A line that begins with the keyword of synchronizations is one. -/
theorem exists_links_of_head {l : Line} {φ : Phrase} {attributes : Attributes} (hl : InLine l.words)
    (h : (Phrase.opening.read l.words).outcome l.stop = .ok (φ, attributes))
    (hhead : l.words.head?.map Word.kind = some (.keyword .sync)) : ∃ links, φ = .sync links := by
  have hspelled : Spelled Phrase.rules (Phrase.opening.read l.words).words φ :=
    Place.spelled_of_outcome h
  rw [Place.words_of_outcome hl h] at hspelled
  obtain ⟨first, k, r, body, list, hsplit, hkind, hlookup, hbody, -⟩ := hspelled
  have hkeyword : k = φ.kind.keyword := keyword_of_spelled hlookup hbody
  rw [hsplit, List.head?_cons, Option.map_some, hkind, hkeyword] at hhead
  cases φ with
  | sync links => exact ⟨links, rfl⟩
  | _ => exact absurd hhead (by simp [Phrase.kind, Kind.keyword])

/-- **One line.** What is said when it is entered is what is to be reported of it. -/
theorem Reachable.reported_enter (hs : s.Reachable) (check : BoundsCheck) {l : Line}
    (hl : l.IsEnded) : l.Reported check s (s.enter check l.stop l.words).diagnostics := by
  have hmem : (∃ result, (Phrase.opening.read l.words).outcome l.stop = .ok result) ↔
      kinds l.words ∈ Pattern.declaration.matches' := by
    rw [Place.exists_ok_iff distinct_declaration hl.1 hl.2, remaining_declaration]
  cases houtcome : (Phrase.opening.read l.words).outcome l.stop with
  | error f =>
    have hline : kinds l.words ∉ Pattern.declaration.matches' := by
      rw [← hmem, houtcome]
      simp
    have hviable : ∃ ks, ks ∈ Phrase.opening.remaining :=
      ⟨[.keyword .event, .colon, .ident], by rw [remaining_declaration]; decide⟩
    have hexact : f.IsExact Phrase.opening.remaining
        [.clock, .edge, .event, .int, .location, .process, .sync] l _ :=
      Place.isExact_of_outcome distinct_declaration rfl hviable hl.1 hl.2 houtcome
    rw [remaining_declaration] at hexact
    rw [enter_of_error houtcome, hs.notes_eq]
    exact .malformed hline hexact
  | ok result =>
    obtain ⟨φ, attributes⟩ := result
    have hline : kinds l.words ∈ Pattern.declaration.matches' := hmem.mp ⟨_, houtcome⟩
    have hwords := Place.words_of_outcome hl.1 houtcome
    rw [enter_diagnostics_of_outcome check s houtcome, hs.notes_eq, hwords]
    refine .declared hline houtcome (fun r => report_submit check s r _)
      (length_saidAbout_le check s _) fun hhead => ?_
    obtain ⟨links, rfl⟩ := exists_links_of_head hl.1 houtcome hhead
    exact hs.saidAbout_sync check links attributes _

end Store

-- ============================================================================
-- Texts
-- ============================================================================

/-- What is said about a text whose first line declares the network is what is said about the other
lines. -/
theorem diagnostics_of_header {source : String} {options : Options}
    (hlimit : options.maxErrors = none) {first : Line} {others : List Line}
    (hlines : linesOf source.toList = first :: others)
    (hheader : kinds first.words ∈ Pattern.header.matches') :
    (parse source options).diagnostics =
      (Store.empty.enterLines options.boundsCheck others).1 := by
  obtain ⟨hinline, hstop⟩ := isEnded_linesOf source.toList first (hlines ▸ List.mem_cons_self)
  have hmem : kinds first.words ∈ Header.opening.remaining := by rwa [remaining_header]
  obtain ⟨result, houtcome⟩ := (Place.exists_ok_iff distinct_header hinline hstop).mpr hmem
  rw [diagnostics_parse hlimit hlines, linesSay, houtcome]

/-- **The report of a text.** If its first line declares the network, and there is no limit on
errors, all that is said is said about the other lines. What is said about one of them is told by
its row: notes on its words, up to the first syntax error, and behind them at most the syntax error,
or else what is said when the declaration is submitted to the store behind the lines above. -/
theorem diagnostics_of_line {source : String} {options : Options}
    (hlimit : options.maxErrors = none) {first : Line} {others : List Line}
    (hlines : linesOf source.toList = first :: others)
    (hheader : kinds first.words ∈ Pattern.header.matches') :
    let said := (parse source options).diagnostics
    (∀ d ∈ said, ∃ l ∈ others, d.span.start.line = l.row) ∧
      ∀ above l below, others = above ++ l :: below →
        l.Reported options.boundsCheck (Store.empty.enterLines options.boundsCheck above).2
          (said.filter fun d => d.span.start.line = l.row) := by
  intro said
  have hsaid : said = (Store.empty.enterLines options.boundsCheck others).1 :=
    diagnostics_of_header hlimit hlines hheader
  have hrows : OnRows others := (hlines ▸ onRows_linesOf source.toList).of_cons
  refine ⟨?_, fun above l below hsplit => ?_⟩
  · have hstands : ∀ l ∈ others, l.StandsOn fun row => ∃ k ∈ others, row = k.row :=
      fun l hl w hw => ⟨l, hl, hrows.standsOn l hl w hw⟩
    rw [hsaid]
    exact Store.row_of_enterLines .empty _ hstands
  · subst hsplit
    have hended : l.IsEnded :=
      isEnded_linesOf source.toList l (hlines ▸ List.mem_cons_of_mem first (by simp))
    rw [hsaid, hrows.said_on]
    exact (Store.Reachable.empty.enterLines _ above).reported_enter options.boundsCheck hended

/-- Two numerals that are out of range before a syntax error, and two links of which one has a
process that is declared. -/
def noteSample : String :=
  "system:s\nprocess:P\nint:9999999999:-9999999999:9999999999-\nsync:Q@a:P@a\n"

theorem diagnostics_of_line_noteSample :
    let said := (parse noteSample {}).diagnostics
    said.map Diagnostic.code = [.unsignedRange, .signedRange, .signedRange, .invalidToken,
        .undeclaredProcess, .undeclaredEvent] ∧
      ∃ first others, linesOf noteSample.toList = first :: others ∧
        kinds first.words ∈ Pattern.header.matches' ∧ others.length = 3 ∧
        ∀ above l below, others = above ++ l :: below →
          l.Reported .ignore (Store.empty.enterLines .ignore above).2
            (said.filter fun d => d.span.start.line = l.row) := by
  intro said
  have hkinds : (linesOf noteSample.toList).map (fun l => kinds l.words) =
      [[.keyword .system, .colon, .ident], [.keyword .process, .colon, .ident],
        [.keyword .int, .colon, .integer, .colon, .integer, .colon, .integer, .invalid],
        [.keyword .sync, .colon, .ident, .atSign, .ident, .colon, .ident, .atSign, .ident]] := by
    decide +kernel
  refine ⟨by decide +kernel, ?_⟩
  cases hlines : linesOf noteSample.toList with
  | nil =>
    rw [hlines] at hkinds
    exact absurd hkinds (by simp)
  | cons first others =>
    rw [hlines] at hkinds
    obtain ⟨hfirst, hothers⟩ := List.cons.inj hkinds
    have hwords : kinds first.words = [.keyword .system, .colon, .ident] := hfirst
    have hheader : kinds first.words ∈ Pattern.header.matches' := by
      rw [hwords]
      decide
    have hlength : others.length = 3 := by
      simpa using congrArg List.length hothers
    have hlimit : ({} : Options).maxErrors = none := rfl
    exact ⟨first, others, rfl, hheader, hlength, (diagnostics_of_line hlimit hlines hheader).2⟩

end TimedNet
