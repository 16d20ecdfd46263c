/-
  TimedNet.Proofs.Session.BoundsModes

  What is done about an initial value outside of its bounds. A warning changes neither the store nor
  the count of errors, so a session that warns does what one does that looks away, and says the same
  but for the warnings (`read_unwarned`). A session that is strict drops the declaration, and from
  there on it may go another way; but as long as nothing is said, no value is out of bounds, and
  lines are entered alike whatever is done about it (`enterLines_of_silent`).
-/
import TimedNet.Proofs.Session.CleanText
import TimedNet.Proofs.Session.Lockstep

namespace TimedNet

-- ============================================================================
-- Diagnostics without warnings
-- ============================================================================

/-- A warning about an initial value outside of its bounds. -/
def Diagnostic.isBoundsWarning (d : Diagnostic) : Bool := d.code == .initialBounds && !d.isError

/-- Diagnostics without the warnings about bounds. -/
def unwarned (ds : List Diagnostic) : List Diagnostic := ds.filter fun d => !d.isBoundsWarning

theorem Diagnostic.isBoundsWarning_of_error {d : Diagnostic} (h : d.isError = true) :
    d.isBoundsWarning = false := by
  simp [isBoundsWarning, h]

theorem unwarned_append (ds es : List Diagnostic) :
    unwarned (ds ++ es) = unwarned ds ++ unwarned es :=
  List.filter_append ds es

/-- Errors stay. -/
theorem unwarned_of_errors {ds : List Diagnostic} (h : ∀ d ∈ ds, d.isError = true) :
    unwarned ds = ds := by
  rw [unwarned, List.filter_eq_self]
  intro d hd
  rw [Diagnostic.isBoundsWarning_of_error (h d hd)]
  rfl

theorem errors_unwarned (ds : List Diagnostic) :
    (unwarned ds).filter Diagnostic.isError = ds.filter Diagnostic.isError := by
  rw [unwarned, List.filter_filter]
  refine List.filter_congr fun d _ => ?_
  cases herror : d.isError with
  | false => rfl
  | true => rw [Diagnostic.isBoundsWarning_of_error herror]; rfl

-- ============================================================================
-- Bounds
-- ============================================================================

namespace DraftItem

variable {i : DraftItem} {d : Diagnostic}

/-- The warning about a draft. -/
def boundsWarning? (i : DraftItem) : Option Diagnostic :=
  i.boundsProblem?.map fun d => { d with severity := .warning }

theorem checkBounds_ignore (i : DraftItem) : i.checkBounds .ignore = .ok none := rfl

theorem checkBounds_warn (i : DraftItem) : i.checkBounds .warn = .ok i.boundsWarning? := by
  unfold checkBounds boundsWarning?
  cases i.boundsProblem? <;> rfl

theorem isBoundsWarning_of_boundsWarning (h : i.boundsWarning? = some d) :
    d.isBoundsWarning = true := by
  obtain ⟨e, he, rfl⟩ := Option.map_eq_some_iff.mp h
  simp [Diagnostic.isBoundsWarning, Diagnostic.isError, code_of_boundsProblem he]

/-- Only a check that warns passes with a warning. -/
theorem warns_of_checkBounds {check : BoundsCheck} (h : i.checkBounds check = .ok (some d)) :
    check = .warn ∧ d.code = .initialBounds := by
  unfold checkBounds at h
  split at h
  · next e he =>
    obtain rfl := Option.some.inj (Except.ok.inj h)
    have hcode : e.code = .initialBounds := code_of_boundsProblem he
    exact ⟨rfl, hcode⟩
  · exact absurd h (by simp)
  · exact absurd h (by simp)

/-- A check that is not left out passes in silence exactly if there is no problem. -/
theorem checkBounds_eq_none_iff {check : BoundsCheck} (hcheck : check ≠ .ignore) :
    i.checkBounds check = .ok none ↔ i.boundsProblem? = none := by
  unfold checkBounds
  cases check with
  | ignore => exact absurd rfl hcheck
  | warn => cases i.boundsProblem? <;> simp
  | error => cases i.boundsProblem? <;> simp

/-- Without a problem nothing has to be done about it. -/
theorem checkBounds_of_none (h : i.boundsProblem? = none) (check : BoundsCheck) :
    i.checkBounds check = .ok none := by
  cases check with
  | ignore => rfl
  | warn => exact (checkBounds_eq_none_iff (by simp)).mpr h
  | error => exact (checkBounds_eq_none_iff (by simp)).mpr h

end DraftItem

-- ============================================================================
-- One line
-- ============================================================================

namespace Store

variable {s : Store} {check : BoundsCheck} {close : Word} {ws : List Word}

/-- Where bounds are ignored there is none. -/
theorem warning_of_accept_ignore {d : Draft} {a : Acceptance} (h : s.accept .ignore d = .ok a) :
    a.warning = none := by
  have hbounds := checkBounds_of_accept h
  rw [DraftItem.checkBounds_ignore] at hbounds
  exact (Except.ok.inj hbounds).symm

/-- To warn is to accept what is accepted where bounds are ignored. -/
theorem accept_warn (s : Store) (d : Draft) :
    s.accept .warn d =
      (s.accept .ignore d).map fun a => { a with warning := d.item.boundsWarning? } := by
  unfold accept
  rw [DraftItem.checkBounds_warn, DraftItem.checkBounds_ignore]
  cases s.resolve d.item with
  | error e => rfl
  | ok item =>
    simp only [bind, Except.bind]
    cases s.insert ⟨item, d.attributes, d.span⟩ <;> rfl

/-- **One line.** To ignore bounds is to leave the warnings out. -/
theorem enter_ignore (s : Store) (close : Word) (ws : List Word) :
    let entry := s.enter .warn close ws
    s.enter .ignore close ws = { entry with diagnostics := unwarned entry.diagnostics } := by
  intro entry
  let reading := Phrase.opening.read ws
  have hnotes : ∀ d ∈ reading.parts.filterMap (Part.fault? s), d.isError = true := by
    intro d hd
    obtain ⟨part, -, hfault⟩ := List.mem_filterMap.mp hd
    exact (Part.isSemantic_of_fault hfault).1
  have herror : ∀ {d : Diagnostic}, d.isError = true →
      unwarned (reading.parts.filterMap (Part.fault? s) ++ [d]) =
        reading.parts.filterMap (Part.fault? s) ++ [d] := by
    intro d hd
    exact unwarned_of_errors (List.forall_mem_append.mpr ⟨hnotes, List.forall_mem_singleton.mpr hd⟩)
  cases houtcome : reading.outcome close with
  | error f =>
    simp only [entry, reading, enter_of_error houtcome, herror f.isError_diagnostic]
  | ok result =>
    obtain ⟨φ, as⟩ := result
    let draft : Draft := ⟨φ.draft s, as, reading.span close⟩
    have hwarn := s.accept_warn draft
    cases haccept : s.accept .ignore draft with
    | error e =>
      rw [haccept] at hwarn
      have he : e.isError = true := (s.isSemantic_accept .ignore draft e haccept).1
      simp only [entry, reading, enter_of_refused houtcome haccept,
        enter_of_refused houtcome hwarn, herror he]
    | ok a =>
      rw [haccept] at hwarn
      have hwarning : unwarned draft.item.boundsWarning?.toList = [] := by
        rw [unwarned, List.filter_eq_nil_iff]
        intro d hd
        simp [DraftItem.isBoundsWarning_of_boundsWarning (Option.mem_toList.mp hd)]
      simp only [entry, reading, enter_of_accepted houtcome haccept,
        enter_of_accepted houtcome hwarn, unwarned_append, unwarned_of_errors hnotes, hwarning,
        warning_of_accept_ignore haccept, Option.toList_none]

/-- What is said about a line is an error, or warns about bounds where that is asked for. -/
theorem isError_or_warns {d : Diagnostic} (hd : d ∈ (s.enter check close ws).diagnostics) :
    d.isError = true ∨ (check = .warn ∧ d.code = .initialBounds) := by
  rcases cause_of_enter hd with ⟨part, -, hfault⟩ | ⟨f, -, rfl⟩ | ⟨φ, as, -, haccept | hbounds⟩
  · exact Or.inl (Part.isSemantic_of_fault hfault).1
  · exact Or.inl f.isError_diagnostic
  · exact Or.inl (s.isSemantic_accept check _ d haccept).1
  · exact Or.inr (DraftItem.warns_of_checkBounds hbounds)

/-- Where bounds are checked and nothing is said, no initial value is out of bounds. -/
theorem within_of_silent (hcheck : check ≠ .ignore)
    (hsilent : (s.enter check close ws).diagnostics = []) {φ : Phrase} {as : Attributes}
    (houtcome : (Phrase.opening.read ws).outcome close = .ok (φ, as)) :
    (φ.draft s).boundsProblem? = none := by
  rcases s.enter_cases check close ws with
    ⟨f, herror, -⟩ | ⟨φ, as, e, -, -, hsaid, -⟩ | ⟨ψ, bs, a, hok, haccept, hsaid, -⟩
  · exact absurd (houtcome.symm.trans herror) (by simp)
  · exact absurd (hsaid.symm.trans hsilent) (by simp)
  · obtain ⟨rfl, rfl⟩ := Prod.mk.inj (Except.ok.inj (houtcome.symm.trans hok))
    have hwarning : a.warning = none := by
      have hnil := (List.append_eq_nil_iff.mp (hsaid.symm.trans hsilent)).2
      exact Option.toList_eq_nil_iff.mp hnil
    have hbounds := checkBounds_of_accept haccept
    rw [hwarning] at hbounds
    exact (DraftItem.checkBounds_eq_none_iff hcheck).mp hbounds

/-- Where no initial value is out of bounds, it does not matter what is done about one that is. -/
theorem enter_of_within
    (h : ∀ φ as, (Phrase.opening.read ws).outcome close = .ok (φ, as) →
      (φ.draft s).boundsProblem? = none) (check check' : BoundsCheck) :
    s.enter check close ws = s.enter check' close ws := by
  cases houtcome : (Phrase.opening.read ws).outcome close with
  | error f => simp only [enter, houtcome]
  | ok result =>
    obtain ⟨φ, as⟩ := result
    have hbounds := DraftItem.checkBounds_of_none (h φ as houtcome)
    simp only [enter, houtcome, accept, hbounds]

-- ============================================================================
-- Lines
-- ============================================================================

theorem isError_or_warns_of_enterLines {ls : List Line} {d : Diagnostic}
    (hd : d ∈ (s.enterLines check ls).1) :
    d.isError = true ∨ (check = .warn ∧ d.code = .initialBounds) := by
  induction ls generalizing s with
  | nil => exact absurd hd List.not_mem_nil
  | cons l ls ih =>
    rcases List.mem_append.mp hd with hd | hd
    · exact isError_or_warns hd
    · exact ih hd

/-- **Silent lines** are entered alike, whatever is done about bounds. -/
theorem enterLines_of_silent (hcheck : check ≠ .ignore) {ls : List Line}
    (hsilent : (s.enterLines check ls).1 = []) (check' : BoundsCheck) :
    s.enterLines check' ls = s.enterLines check ls := by
  induction ls generalizing s with
  | nil => rfl
  | cons l ls ih =>
    obtain ⟨hfirst, hothers⟩ := List.append_eq_nil_iff.mp hsilent
    have hentry := enter_of_within (fun φ as houtcome => within_of_silent hcheck hfirst houtcome)
      check' check
    rw [enterLines, enterLines, hentry, ih hothers]

end Store

-- ============================================================================
-- Sessions
-- ============================================================================

/-- The report without the warnings about bounds. -/
def Report.unwarned (r : Report) : Report := { r with entries := TimedNet.unwarned r.entries }

theorem Report.unwarned_push (r : Report) (d : Diagnostic) :
    (r.push d).unwarned = r.unwarned.append (TimedNet.unwarned [d]) := by
  cases hwarning : d.isBoundsWarning with
  | false =>
    have hkept : TimedNet.unwarned [d] = [d] := by simp [TimedNet.unwarned, hwarning]
    rw [hkept]
    simp [unwarned, push, TimedNet.unwarned_append, hkept]
  | true =>
    have hgone : TimedNet.unwarned [d] = [] := by simp [TimedNet.unwarned, hwarning]
    have herror : d.isError = false := by
      simpa using (Bool.and_eq_true_iff.mp hwarning).2
    rw [hgone]
    simp [unwarned, push, TimedNet.unwarned_append, hgone, herror]

/-- A warning is not counted, so that a report without it has counted the same. -/
theorem Report.unwarned_append (r : Report) (ds : List Diagnostic) :
    (r.append ds).unwarned = r.unwarned.append (TimedNet.unwarned ds) := by
  induction ds generalizing r with
  | nil => rfl
  | cons d ds ih =>
    rw [append_cons, ih, unwarned_push, ← append_append, ← TimedNet.unwarned_append]
    rfl

namespace Session

/-- The session as it is if it does not look at bounds. -/
def unwarned (s : Session) : Session :=
  { s with options := { s.options with boundsCheck := .ignore }, report := s.report.unwarned }

variable (s : Session)

theorem say_unwarned (ds : List Diagnostic) :
    s.unwarned.say (TimedNet.unwarned ds) = (s.say ds).unwarned := by
  simp only [say, unwarned, Report.unwarned_append]

/-- An error is never left out. -/
theorem say_error_unwarned {d : Diagnostic} (h : d.isError = true) :
    s.unwarned.say [d] = (s.say [d]).unwarned := by
  rw [← say_unwarned, unwarned_of_errors (List.forall_mem_singleton.mpr h)]

theorem abort_unwarned : s.unwarned.abort = s.abort.unwarned := by
  have hproblem : (Problem.tooManyErrors s.unwarned.errorCount).diagnostic s.unwarned.current.span =
      (Problem.tooManyErrors s.errorCount).diagnostic s.current.span := rfl
  rw [abort, abort, hproblem, say_error_unwarned s (Problem.isError_diagnostic _ _)]
  rfl

theorem readHeader_unwarned :
    s.unwarned.readHeader = (s.readHeader.1, s.readHeader.2.unwarned) := by
  have hwords : s.unwarned.words = s.words := rfl
  have hclose : s.unwarned.close = s.close := rfl
  unfold readHeader
  rw [hwords, hclose]
  dsimp only
  split
  · rfl
  · next f _ =>
    rw [say_error_unwarned s f.isError_diagnostic]
    rfl

/-- A session that warns goes in lockstep with itself as it is if it does not. -/
theorem lockstep_unwarned :
    Lockstep Eq Eq Eq fun s t => t = s.unwarned ∧ s.options.boundsCheck = .warn where
  kind _ _ h := congrArg Word.kind h
  words := by
    rintro s _ ⟨rfl, -⟩
    exact List.forall₂_same.mpr fun _ _ => rfl
  goTo := by
    rintro s _ ⟨rfl, hwarn⟩ ws vs h
    rw [List.forall₂_eq_eq_eq] at h
    subst h
    exact ⟨rfl, hwarn⟩
  keep := by
    rintro s _ ⟨rfl, hwarn⟩ m n h
    rw [rel_eq_iff] at h
    subst h
    exact ⟨rfl, hwarn⟩
  isOverLimit := by
    rintro s _ ⟨rfl, -⟩
    rfl
  abort := by
    rintro s _ ⟨rfl, hwarn⟩
    exact ⟨s.abort_unwarned, hwarn⟩
  readHeader := by
    rintro s _ ⟨rfl, hwarn⟩
    rw [readHeader_unwarned, rel_eq_iff, s.readHeader_options.1]
    exact ⟨rfl, rfl, hwarn⟩
  empty := rfl
  turn := by
    rintro s _ ⟨rfl, hwarn⟩ a _ rfl ws vs h
    rw [List.forall₂_eq_eq_eq] at h
    subst h
    have hentry : s.unwarned.enter a ws =
        { s.enter a ws with diagnostics := TimedNet.unwarned (s.enter a ws).diagnostics } := by
      simp only [enter, hwarn]
      exact a.enter_ignore s.close ws
    rw [hentry]
    refine ⟨rfl, ?_, hwarn⟩
    rw [pass, say_unwarned]
    rfl
  filled := by
    rintro m _ rfl a _ rfl
    rfl
  verdict := by
    rintro s _ ⟨rfl, -⟩
    exact ⟨rfl, rfl⟩
  network := by
    rintro s _ ⟨rfl, -⟩
    rw [rel_eq_iff]
    rfl

/-- **One reading.** Not to look at bounds changes nothing but the warnings. -/
theorem read_unwarned (hwarn : s.options.boundsCheck = .warn) :
    s.unwarned.read = (s.read.1, s.read.2.unwarned) := by
  obtain ⟨hnetwork, hsession, -⟩ := lockstep_unwarned.read (s := s) ⟨rfl, hwarn⟩
  rw [rel_eq_iff] at hnetwork
  exact Prod.ext hnetwork.symm hsession

end Session

-- ============================================================================
-- Texts
-- ============================================================================

/-- A text that is read as a network without a word where bounds are checked is read alike whatever
is done about them. -/
theorem parse_of_silent {source : String} {options : Options}
    (hcheck : options.boundsCheck ≠ .ignore) (hok : (parse source options).isOk = true)
    (hsilent : (parse source options).diagnostics = []) (check : BoundsCheck) :
    parse source { options with boundsCheck := check } = parse source options := by
  obtain ⟨n, hn⟩ := Option.isSome_iff_exists.mp hok
  obtain ⟨first, others, name, as, hlines, hheader, hclean, -⟩ := exists_header_of_parse hn
  rw [parse_of_header hlines hheader hclean] at hsilent ⊢
  have henter := Store.enterLines_of_silent hcheck hsilent check
  rw [← henter] at hclean ⊢
  have hother : parse source { options with boundsCheck := check } = _ :=
    parse_of_header hlines hheader hclean
  exact hother

/-- What is said about a text that is read as a network are warnings about bounds, if any. -/
theorem warns_of_parse {source : String} {options : Options}
    (hok : (parse source options).isOk = true) {d : Diagnostic}
    (hd : d ∈ (parse source options).diagnostics) :
    options.boundsCheck = .warn ∧ d.code = .initialBounds := by
  obtain ⟨n, hn⟩ := Option.isSome_iff_exists.mp hok
  obtain ⟨first, others, name, as, hlines, hheader, hclean, -⟩ := exists_header_of_parse hn
  rw [parse_of_header hlines hheader hclean] at hd
  have herror := hclean d hd
  refine (Store.isError_or_warns_of_enterLines hd).resolve_left ?_
  rw [herror]
  exact Bool.false_ne_true

/-- **What to do about bounds.** For every text and every limit on errors, to warn about initial
values outside of their bounds gives the same network as to ignore them, or none as well, stops
before the end in the same cases, and says the same but for the warnings about bounds. To be strict
about them gives a network exactly if to warn does and no such warning is said; then both come to
the same. -/
theorem parse_boundsModes (source : String) (options : Options) :
    let ignored := parse source { options with boundsCheck := .ignore }
    let warned := parse source { options with boundsCheck := .warn }
    let strict := parse source { options with boundsCheck := .error }
    (warned.system = ignored.system ∧ warned.isFatal = ignored.isFatal ∧
      warned.errors = ignored.errors ∧
      warned.diagnostics.filter (fun d => !d.isBoundsWarning) = ignored.diagnostics) ∧
    (strict.isOk = true ↔
      warned.isOk = true ∧ ∀ d ∈ warned.diagnostics, d.code ≠ .initialBounds) ∧
    (strict.isOk = true → strict = warned) := by
  intro ignored warned strict
  let u := Session.new (Token.scan source) (.ofText source)
    { options with boundsCheck := .warn } .empty
  have hread : u.unwarned.read = (u.read.1, u.read.2.unwarned) := u.read_unwarned rfl
  have hignored : ignored = ⟨u.unwarned.read.1, u.unwarned.read.2.report.entries,
      u.unwarned.read.2.isFatal, options.sourceName⟩ := rfl
  rw [hread] at hignored
  have hdiagnostics : ignored.diagnostics = unwarned warned.diagnostics := by
    rw [hignored]
    rfl
  have herrors : warned.errors = ignored.errors := by
    rw [Parsed.errors, Parsed.errors, hdiagnostics, errors_unwarned]
  have hstrict : strict.isOk = true → strict = warned ∧ strict.diagnostics = [] := by
    intro hok
    have hsilent : strict.diagnostics = [] := by
      rw [List.eq_nil_iff_forall_not_mem]
      intro d hd
      exact absurd (warns_of_parse hok hd).1 (by simp)
    exact ⟨(parse_of_silent (by simp) hok hsilent .warn).symm, hsilent⟩
  refine ⟨⟨?_, ?_, herrors, hdiagnostics.symm⟩, ⟨fun hok => ?_, ?_⟩, fun hok => (hstrict hok).1⟩
  · rw [hignored]
    rfl
  · rw [hignored]
    rfl
  · obtain ⟨hsame, hsilent⟩ := hstrict hok
    rw [← hsame, hsilent]
    exact ⟨hok, by simp⟩
  · rintro ⟨hok, hnone⟩
    have hsilent : warned.diagnostics = [] := by
      rw [List.eq_nil_iff_forall_not_mem]
      intro d hd
      exact hnone d hd (warns_of_parse hok hd).2
    have hsame : strict = warned := parse_of_silent (by simp) hok hsilent .error
    rwa [hsame]

/-- A variable that starts above its bounds. -/
def looseSample : String := "system:s\nint:1:0:1:5:n\n"

example :
    [BoundsCheck.ignore, .warn, .error].map (fun check =>
      (parse looseSample { boundsCheck := check }).diagnostics.map Diagnostic.severity) =
      [[], [.warning], [.error]] := by
  decide +kernel

end TimedNet
