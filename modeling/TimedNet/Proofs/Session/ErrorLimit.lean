/-
  TimedNet.Proofs.Session.ErrorLimit

  A limit on errors only cuts the reading of a text short. As long as the errors are within the
  limit, a session with it does what one without does (`readDeclarations_within`). Otherwise it says
  the same down to the first line with which the limit is exceeded, and that it gives up
  (`readDeclarations_beyond`). Errors are counted behind whole lines only.
-/
import TimedNet.Proofs.Session.Rows

namespace TimedNet

/-- The number of errors among diagnostics. -/
def errorsIn (ds : List Diagnostic) : Nat := ds.countP Diagnostic.isError

theorem errorsIn_append (ds es : List Diagnostic) :
    errorsIn (ds ++ es) = errorsIn ds + errorsIn es := List.countP_append

namespace Session

/-- The session with another limit on errors. -/
def withLimit (s : Session) (limit : Option Nat) : Session :=
  { s with options := { s.options with maxErrors := limit } }

-- ============================================================================
-- Steps under a limit
-- ============================================================================

/-- The declaration of the network is read whatever the limit. -/
theorem readHeader_withLimit (s : Session) (limit : Option Nat) :
    (s.withLimit limit).readHeader = (s.readHeader.1, s.readHeader.2.withLimit limit) := by
  have hwords : (s.withLimit limit).words = s.words := rfl
  have hclose : (s.withLimit limit).close = s.close := rfl
  unfold readHeader
  rw [hwords, hclose]
  dsimp only
  split <;> rfl

theorem isOverLimit_withLimit (s : Session) (m : Nat) :
    (s.withLimit (some m)).isOverLimit = true ↔ m < s.errorCount := by
  have hcount : (s.withLimit (some m)).errorCount = s.errorCount := rfl
  have hlimit : (s.withLimit (some m)).options.maxErrors = some m := rfl
  rw [isOverLimit, hlimit, hcount]
  exact decide_eq_true_iff

/-- **One declaration** under a limit. The session goes on unless there are too many errors behind
it. -/
theorem readDeclarations_withLimit {s next : Session} {store : Store} {entry : Entry} {w : Word}
    {ws : List Word} (m : Nat) (hs : skipLineEnds s.words = w :: ws) (hw : ¬ w.kind = .endOfFile)
    (hentry : store.enter s.options.boundsCheck s.close (w :: ws) = entry)
    (hnext : (s.say entry.diagnostics).goTo entry.rest = next) :
    (s.withLimit (some m)).readDeclarations store =
      if m < next.errorCount then (entry.store, (next.withLimit (some m)).abort)
      else (next.withLimit (some m)).readDeclarations entry.store := by
  subst hnext
  split
  · next hm =>
    rw [← isOverLimit_withLimit] at hm
    exact readDeclarations_of_over (s := s.withLimit (some m)) hs hw hentry rfl hm
  · next hm =>
    rw [← isOverLimit_withLimit] at hm
    exact readDeclarations_of_not_over (s := s.withLimit (some m)) hs hw hentry rfl hm

/-- Errors are counted from where a session began. -/
theorem errorCount_of_says {s t : Session} {ds : List Diagnostic} (h : s.Says ds t)
    (hs : s.earlierErrors ≤ s.report.errorCount) :
    t.errorCount = s.errorCount + errorsIn ds := by
  rw [errorCount, errorCount, h.report, h.earlierErrors, Report.errorCount_append, errorsIn]
  omega

/-- **Within the limit** a session does what it does without. -/
theorem readDeclarations_within {m : Nat} (s : Session) (store : Store)
    (hnone : s.options.maxErrors = none)
    (hs : s.earlierErrors ≤ s.report.errorCount)
    (hwithin : (s.readDeclarations store).2.errorCount ≤ m) :
    (s.withLimit (some m)).readDeclarations store =
      ((s.readDeclarations store).1, (s.readDeclarations store).2.withLimit (some m)) := by
  induction s, store using readDeclarations.induct with
  | case1 s store hskip =>
    rw [readDeclarations_of_nil store hskip,
      readDeclarations_of_nil (s := s.withLimit (some m)) store hskip]
    rfl
  | case2 s store w ws hskip hw =>
    rw [readDeclarations_of_cons store hskip,
      readDeclarations_of_cons (s := s.withLimit (some m)) store hskip, if_pos hw, if_pos hw]
    rfl
  | case3 s store w ws hskip hw entry next hover =>
    exact absurd hover (not_isOverLimit_of_none hnone)
  | case4 s store w ws hskip hw entry next hover ih =>
    have hloop : s.readDeclarations store = next.readDeclarations entry.store :=
      readDeclarations_of_not_over hskip hw rfl rfl hover
    have hnext : next.earlierErrors ≤ next.report.errorCount :=
      Nat.le_trans hs ((s.says_say entry.diagnostics).goTo entry.rest).le_errorCount
    rw [hloop] at hwithin ⊢
    -- errors are never taken back, so there are not too many yet
    have hm : ¬ m < next.errorCount := by
      obtain ⟨ds, hmore⟩ := next.says_readDeclarations entry.store
      have hcount := errorCount_of_says hmore hnext
      omega
    rw [readDeclarations_withLimit m hskip hw rfl rfl, if_neg hm]
    exact ih hnone hnext hwithin

/-- From `s` to `t` a session enters lines into a store down to the first with which it has found
more than `m` errors, and gives up there. -/
def CutShort (m : Nat) (check : BoundsCheck) (s : Session) (store : Store) (ls : List Line)
    (t : Session) : Prop :=
  ∃ upper l lower span, ls = upper ++ l :: lower ∧
    let said := (store.enterLines check (upper ++ [l])).1
    s.errorCount + errorsIn (store.enterLines check upper).1 ≤ m ∧
    m < s.errorCount + errorsIn said ∧ t.isFatal = true ∧
    t.report = s.report.append
      (said ++ [(Problem.tooManyErrors (s.errorCount + errorsIn said)).diagnostic span])

section Lines

variable {m : Nat} {check : BoundsCheck} {s next t : Session} {store : Store} {l : Line}
  {ls : List Line}

theorem CutShort.isFatal (h : CutShort m check s store ls t) : t.isFatal = true := by
  obtain ⟨-, -, -, -, -, -, -, hfatal, -⟩ := h
  exact hfatal

/-- The session gives up behind the first line. -/
theorem cutShort_first (hstart : s.errorCount ≤ m)
    (hnext : s.Says (store.enter check l.stop l.words).diagnostics next)
    (hcount : next.errorCount =
      s.errorCount + errorsIn (store.enter check l.stop l.words).diagnostics)
    (hm : m < next.errorCount) :
    CutShort m check s store (l :: ls) (next.withLimit (some m)).abort := by
  have hsaid : (store.enterLines check ([] ++ [l])).1 =
      (store.enter check l.stop l.words).diagnostics := List.append_nil _
  refine ⟨[], l, ls, next.current.span, rfl, hstart, ?_, rfl, ?_⟩
  · rw [hsaid, ← hcount]
    exact hm
  · rw [hsaid, ← hcount, Report.append_append, ← hnext.report]
    rfl

/-- The session gives up behind a later line. -/
theorem CutShort.cons (hnext : s.Says (store.enter check l.stop l.words).diagnostics next)
    (hcount : next.errorCount =
      s.errorCount + errorsIn (store.enter check l.stop l.words).diagnostics)
    (h : CutShort m check next (store.enter check l.stop l.words).store ls t) :
    CutShort m check s store (l :: ls) t := by
  obtain ⟨upper, k, lower, span, rfl, hupper, hlast, hfatal, hreport⟩ := h
  have hsum : ∀ ks, s.errorCount + errorsIn (store.enterLines check (l :: ks)).1 =
      next.errorCount +
        errorsIn ((store.enter check l.stop l.words).store.enterLines check ks).1 := by
    intro ks
    rw [Store.enterLines, errorsIn_append, hcount, Nat.add_assoc]
  refine ⟨l :: upper, k, lower, span, rfl, ?_, ?_, hfatal, ?_⟩
  · rw [hsum]
    exact hupper
  · rw [List.cons_append, hsum]
    exact hlast
  · rw [List.cons_append, hsum, Store.enterLines, List.append_assoc, Report.append_append,
      ← hnext.report]
    exact hreport

/-- What is said down to where a session is cut short can be told by the row of that line. -/
theorem CutShort.on_rows (h : CutShort m check s store ls t) (hrows : OnRows ls)
    (hzero : s.errorCount = 0) :
    let all := (store.enterLines check ls).1
    ∃ row span said, said <+: all ∧ said = all.filter (fun d => d.span.start.line ≤ row) ∧
      m < errorsIn said ∧ errorsIn (said.filter fun d => d.span.start.line ≠ row) ≤ m ∧
      t.report = s.report.append
        (said ++ [(Problem.tooManyErrors (errorsIn said)).diagnostic span]) := by
  obtain ⟨upper, l, lower, span, rfl, hupper, hlast, -, hreport⟩ := h
  rw [hzero, Nat.zero_add] at hupper hlast hreport
  obtain ⟨hbegins, hfilter, habove⟩ := hrows.said_down_to store check
  exact ⟨l.row, span, _, hbegins, hfilter, hlast, habove ▸ hupper, hreport⟩

end Lines

/-- **Beyond the limit** a session is cut short. -/
theorem readDeclarations_beyond {m : Nat} (s : Session) (store : Store)
    (hnone : s.options.maxErrors = none) (hfile : ∀ w ∈ s.words, w.kind ≠ .endOfFile)
    (hs : s.earlierErrors ≤ s.report.errorCount) (hstart : s.errorCount ≤ m)
    (hbeyond : m < (s.readDeclarations store).2.errorCount) :
    CutShort m s.options.boundsCheck s store (endedLines s.close [] s.words)
      ((s.withLimit (some m)).readDeclarations store).2 := by
  induction s, store using readDeclarations.induct with
  | case1 s store hskip =>
    rw [readDeclarations_of_nil store hskip] at hbeyond
    exact absurd hbeyond (Nat.not_lt.mpr hstart)
  | case2 s store w ws hskip hw =>
    have hmem : w ∈ skipLineEnds s.words := by rw [hskip]; exact List.mem_cons_self
    exact absurd hw (hfile w (List.dropWhile_subset _ hmem))
  | case3 s store w ws hskip hw entry next hover =>
    exact absurd hover (not_isOverLimit_of_none hnone)
  | case4 s store w ws hskip hw entry next hover ih =>
    obtain ⟨l, hlines, hdiagnostics, hstore, hsuffix⟩ :=
      store.enter_first_line s.options.boundsCheck s.close hfile hskip
    have hdiagnostics : entry.diagnostics =
        (store.enter s.options.boundsCheck l.stop l.words).diagnostics := hdiagnostics
    have hstore : entry.store = (store.enter s.options.boundsCheck l.stop l.words).store := hstore
    have hsaid : s.Says (store.enter s.options.boundsCheck l.stop l.words).diagnostics next := by
      rw [← hdiagnostics]
      exact (s.says_say _).goTo _
    have hcount := errorCount_of_says hsaid hs
    have hstep : (s.withLimit (some m)).readDeclarations store =
        if m < next.errorCount then (entry.store, (next.withLimit (some m)).abort)
        else (next.withLimit (some m)).readDeclarations entry.store :=
      readDeclarations_withLimit m hskip hw rfl rfl
    rw [hlines, hstep]
    by_cases hm : m < next.errorCount
    · rw [if_pos hm]
      exact cutShort_first hstart hsaid hcount hm
    · rw [if_neg hm]
      have hloop : s.readDeclarations store = next.readDeclarations entry.store :=
        readDeclarations_of_not_over hskip hw rfl rfl hover
      have hbehind : ∀ v ∈ next.words, v.kind ≠ .endOfFile :=
        fun v hv => hfile v (hsuffix.subset hv)
      rw [hloop] at hbeyond
      have hrest : CutShort m s.options.boundsCheck next entry.store
          (endedLines s.close [] entry.rest)
          ((next.withLimit (some m)).readDeclarations entry.store).2 :=
        ih hnone hbehind (Nat.le_trans hs hsaid.le_errorCount) (Nat.le_of_not_lt hm) hbeyond
      exact CutShort.cons hsaid hcount (hstore ▸ hrest)

-- ============================================================================
-- Readings under a limit
-- ============================================================================

/-- The declaration of the network does not change the options, nor what was counted before. -/
theorem readHeader_options (s : Session) :
    s.readHeader.2.options = s.options ∧ s.readHeader.2.earlierErrors = s.earlierErrors := by
  unfold readHeader
  dsimp only
  split <;> exact ⟨rfl, rfl⟩

variable {u : Session} {m : Nat}

/-- A session that has a network to declare goes on with the lines behind the first. -/
theorem readHeader_of_ne_none (hclose : u.close.kind.endsDeclaration = true)
    (hfile : ∀ w ∈ u.words, w.kind ≠ .endOfFile) {first : Line} {others : List Line}
    (hlines : endedLines u.close [] u.words = first :: others) (hheader : u.readHeader.1 ≠ none) :
    ∃ network ws, u.readHeader = (some network, u.goTo ws) ∧ endedLines u.close [] ws = others ∧
      ∀ w ∈ ws, w.kind ≠ .endOfFile := by
  rcases u.readHeader_by_line hclose hfile hlines with
    ⟨f, ws, -, hread⟩ | ⟨name, as, ws, -, hread, hothers, hsuffix⟩
  · exact absurd (congrArg Prod.fst hread) hheader
  · exact ⟨_, ws, hread, hothers, fun w hw => hfile w (hsuffix.subset hw)⟩

variable (hnone : u.options.maxErrors = none)

include hnone

/-- The limit does not matter to a session that has no network to declare, or at most so many
errors. -/
theorem build_within (hu : u.earlierErrors ≤ u.report.errorCount)
    (hwithin : u.readHeader.1 = none ∨ u.build.errorCount ≤ m) :
    (u.withLimit (some m)).build = u.build.withLimit (some m) := by
  have hlimited := u.readHeader_withLimit (some m)
  obtain ⟨hoptions, hearlier⟩ := u.readHeader_options
  obtain ⟨ds, hsaid, -⟩ := covers_true.readHeader u
  rcases hread : u.readHeader with ⟨network, t⟩
  rw [hread] at hlimited hoptions hearlier hsaid hwithin
  cases network with
  | none => rw [build_of_none hread, build_of_none hlimited]
  | some network =>
    rw [build_of_some hread] at hwithin
    have hcount : (t.readDeclarations .empty).2.errorCount ≤ m := hwithin.resolve_left (by simp)
    have hfree : t.options.maxErrors = none := by rw [hoptions, hnone]
    have ht : t.earlierErrors ≤ t.report.errorCount := by
      rw [hearlier]
      exact Nat.le_trans hu hsaid.le_errorCount
    rw [build_of_some hread, build_of_some hlimited, t.readDeclarations_within .empty hfree ht hcount]
    rfl

theorem read_within (hu : u.earlierErrors ≤ u.report.errorCount)
    (hwithin : u.readHeader.1 = none ∨ u.build.errorCount ≤ m) :
    (u.withLimit (some m)).read = (u.read.1, u.read.2.withLimit (some m)) :=
  read_of_build (·.withLimit (some m)) (build_within hnone hu hwithin) rfl rfl rfl rfl

/-- Without a limit, and with a network, all lines behind the first are entered. -/
theorem report_build_of_network (hclose : u.close.kind.endsDeclaration = true)
    (hfile : ∀ w ∈ u.words, w.kind ≠ .endOfFile) {first : Line} {others : List Line}
    (hlines : endedLines u.close [] u.words = first :: others) (hheader : u.readHeader.1 ≠ none) :
    u.build.report = u.report.append (Store.empty.enterLines u.options.boundsCheck others).1 := by
  obtain ⟨network, ws, hread, rfl, hbehind⟩ := readHeader_of_ne_none hclose hfile hlines hheader
  rw [build_of_some hread]
  exact ((u.goTo ws).readDeclarations_by_line .empty hbehind (Or.inl hnone)).2

/-- **A reading that is cut short.** It gives out no network. -/
theorem read_beyond (hclose : u.close.kind.endsDeclaration = true)
    (hfile : ∀ w ∈ u.words, w.kind ≠ .endOfFile) (hu : u.earlierErrors = u.report.errorCount)
    {first : Line} {others : List Line}
    (hlines : endedLines u.close [] u.words = first :: others)
    (hheader : u.readHeader.1 ≠ none) (hbeyond : m < u.build.errorCount) :
    (u.withLimit (some m)).read.1 = none ∧
      CutShort m u.options.boundsCheck u .empty others (u.withLimit (some m)).read.2 := by
  obtain ⟨network, ws, hread, rfl, hbehind⟩ := readHeader_of_ne_none hclose hfile hlines hheader
  have hlimited : (u.withLimit (some m)).readHeader =
      (some network, (u.goTo ws).withLimit (some m)) := by
    rw [readHeader_withLimit, hread]
  have hzero : (u.goTo ws).errorCount = 0 := by
    have hcount : (u.goTo ws).errorCount = u.report.errorCount - u.earlierErrors := rfl
    omega
  rw [build_of_some hread] at hbeyond
  have hcut : CutShort m u.options.boundsCheck u .empty (endedLines u.close [] ws)
      (u.withLimit (some m)).build := by
    rw [build_of_some hlimited]
    exact (u.goTo ws).readDeclarations_beyond .empty hnone hbehind (Nat.le_of_eq hu)
      (hzero ▸ Nat.zero_le m) hbeyond
  rw [read_of_bad (Or.inl hcut.isFatal)]
  exact ⟨rfl, hcut⟩

end Session

-- ============================================================================
-- Texts
-- ============================================================================

theorem Parsed.errorCount_eq (p : Parsed) : p.errorCount = errorsIn p.diagnostics :=
  List.countP_eq_length_filter.symm

/-- **No errors.** A text that is read as a network is read alike whatever the limit on errors. -/
theorem parse_unlimited (source : String) (options : Options)
    (h : (parse source options).isOk = true ∨
      (parse source { options with maxErrors := none }).isOk = true) :
    parse source options = parse source { options with maxErrors := none } := by
  obtain ⟨name, limit, check⟩ := options
  cases limit with
  | none => rfl
  | some m =>
    let u := Session.new (Token.scan source) (.ofText source) ⟨name, none, check⟩ .empty
    have hlimited : parse source ⟨name, some m, check⟩ = ⟨(u.withLimit (some m)).read.1,
      (u.withLimit (some m)).read.2.report.entries, (u.withLimit (some m)).read.2.isFatal, name⟩ :=
      rfl
    by_cases hwithin : u.readHeader.1 = none ∨ u.build.errorCount ≤ m
    · rw [hlimited, Session.read_within rfl (Nat.le_refl _) hwithin]
      rfl
    · -- beyond the limit there is no network, with it or without
      obtain ⟨hheader, hbeyond⟩ := not_or.mp hwithin
      have hfile : ∀ w ∈ u.words, w.kind ≠ .endOfFile := kind_ne_of_mem_wordsOf source.toList
      exfalso
      rcases h with hlimitedOk | hfreeOk
      · cases hlines : endedLines u.close [] u.words with
        | nil =>
          obtain ⟨f, ws, -, hread⟩ := u.readHeader_of_nil hfile hlines
          exact hheader (congrArg Prod.fst hread)
        | cons first others =>
          obtain ⟨hnone, -⟩ := Session.read_beyond rfl rfl hfile rfl hlines hheader
            (Nat.lt_of_not_le hbeyond)
          rw [hlimited, hnone] at hlimitedOk
          exact absurd hlimitedOk (by simp [Parsed.isOk])
      · obtain ⟨n, hn⟩ := Option.isSome_iff_exists.mp hfreeOk
        have hcount := (Session.build_of_read (s := u) hn).2
        omega

/-- **A limit on errors** only cuts the reading of a text short, with any check of bounds. Unless the
first line declares the network, and unless there are more errors than the limit, a text is read as
it is without. Otherwise reading stops before the end and there is no network. What is said are all
diagnostics down to some line, and that there are too many errors: more than the limit down to this
line, and not so above it. -/
theorem parse_withLimit (source : String) (options : Options) (m : Nat) :
    let session := Session.new (Token.scan source) (.ofText source) options .empty
    let free := parse source { options with maxErrors := none }
    let limited := parse source { options with maxErrors := some m }
    (session.readHeader.1 = none ∨ free.errorCount ≤ m → limited = free) ∧
      (session.readHeader.1 ≠ none → m < free.errorCount →
        limited.isFatal = true ∧ limited.system = none ∧
          ∃ row span said, said <+: free.diagnostics ∧
            said = free.diagnostics.filter (fun d => d.span.start.line ≤ row) ∧
            m < errorsIn said ∧
            errorsIn (said.filter fun d => d.span.start.line ≠ row) ≤ m ∧
            limited.diagnostics =
              said ++ [(Problem.tooManyErrors (errorsIn said)).diagnostic span]) := by
  intro session free limited
  let u := session.withLimit none
  have hheader : u.readHeader.1 = session.readHeader.1 := by
    rw [show u.readHeader = _ from session.readHeader_withLimit none]
  have hentries : free.diagnostics = u.build.report.entries := by
    obtain ⟨-, -, -, -, hreport⟩ := u.says_read
    exact congrArg Report.entries hreport
  have hcount : free.errorCount = u.build.errorCount := by
    obtain ⟨ds, hsays, -⟩ := u.says_build
    rw [Parsed.errorCount_eq, hentries, hsays.entries, Session.errorCount_of_says hsays (Nat.le_refl _)]
    exact (Nat.zero_add _).symm
  rw [hcount, ← hheader]
  constructor
  · intro hwithin
    have hread : (u.withLimit (some m)).read = (u.read.1, u.read.2.withLimit (some m)) :=
      Session.read_within rfl (Nat.le_refl _) hwithin
    have hlimited : limited = ⟨(u.withLimit (some m)).read.1,
      (u.withLimit (some m)).read.2.report.entries, (u.withLimit (some m)).read.2.isFatal,
      options.sourceName⟩ := rfl
    rw [hlimited, hread]
    rfl
  · intro hnetwork hbeyond
    have hfile : ∀ w ∈ u.words, w.kind ≠ .endOfFile := kind_ne_of_mem_wordsOf source.toList
    cases hlines : endedLines u.close [] u.words with
    | nil =>
      obtain ⟨f, ws, -, hread⟩ := u.readHeader_of_nil hfile hlines
      exact absurd (congrArg Prod.fst hread) hnetwork
    | cons first others =>
      have hreport := Session.report_build_of_network rfl rfl hfile hlines hnetwork
      obtain ⟨hnone, hcut⟩ := Session.read_beyond rfl rfl hfile rfl hlines hnetwork hbeyond
      have hfatal : limited.isFatal = true := hcut.isFatal
      have hrows : OnRows (first :: others) := hlines ▸ onRows_linesOf source.toList
      obtain ⟨row, span, said, hbegins, hfilter, hlast, habove, hlimited⟩ :=
        hcut.on_rows hrows.of_cons rfl
      have hall : free.diagnostics = (Store.empty.enterLines options.boundsCheck others).1 := by
        rw [hentries, hreport, Report.entries_append]
        rfl
      rw [hall]
      refine ⟨hfatal, hnone, row, span, said, hbegins, hfilter, hlast, habove, ?_⟩
      have hsaid : limited.diagnostics = (u.withLimit (some m)).read.2.report.entries := rfl
      rw [hsaid, hlimited, Report.entries_append]
      rfl

/-- Four errors on three lines, of which the second has two. -/
def crowdedSample : String := "system:s\nevent\nint:5000000000:0:9000000000:0:n\nclock\n"

/-- A limit of four is not exceeded. With a limit of one the second line is read to its end. -/
theorem parse_withLimit_crowdedSample :
    let free := parse crowdedSample {}
    let limited := parse crowdedSample { maxErrors := some 1 }
    free.errorCount = 4 ∧ parse crowdedSample { maxErrors := some 4 } = free ∧
      limited.errorCount = 4 ∧ limited.isFatal = true ∧ limited.system = none ∧
      ∃ span said, said <+: free.diagnostics ∧ 1 < errorsIn said ∧
        limited.diagnostics =
          said ++ [(Problem.tooManyErrors (errorsIn said)).diagnostic span] := by
  intro free limited
  have hheader : (Session.new (Token.scan crowdedSample) (.ofText crowdedSample) {}
      .empty).readHeader.1 ≠ none := by decide +kernel
  have hfour : free.errorCount = 4 := by decide +kernel
  obtain ⟨hwithin, -⟩ := parse_withLimit crowdedSample {} 4
  obtain ⟨-, hbeyond⟩ := parse_withLimit crowdedSample {} 1
  obtain ⟨hfatal, hnone, row, span, said, hbegins, -, hsaid, -, hlimited⟩ :=
    hbeyond hheader (hfour.symm ▸ by decide)
  exact ⟨hfour, hwithin (Or.inr (Nat.le_of_eq hfour)), by decide +kernel, hfatal, hnone, span, said,
    hbegins, hsaid, hlimited⟩

end TimedNet
