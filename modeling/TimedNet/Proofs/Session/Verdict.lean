/-
  TimedNet.Proofs.Session.Verdict

  A session yields a network exactly if it found no error. `Says s ds t` relates two states of a
  session between which the diagnostics `ds` were added to the report: whatever a session does, it
  only appends to the report, and it gives up only behind an error. The declaration of the
  network, the loop over the other declarations and a whole reading are steps of this kind, so the
  verdict can be told from the diagnostics alone.
-/
import Mathlib.Logic.Function.Iterate
import TimedNet.Parsed

namespace TimedNet

-- ============================================================================
-- Reports
-- ============================================================================

namespace Report

/-- The reports that entering diagnostics leads to. -/
inductive Reachable : Report → Prop where
  | empty : Reachable .empty
  | push {r : Report} (d : Diagnostic) : Reachable r → Reachable (r.push d)

/-- The count of a report is the number of its errors; what is left are the warnings. -/
theorem Reachable.counts {r : Report} (h : r.Reachable) :
    r.errorCount = r.entries.countP Diagnostic.isError ∧
      r.errorCount ≤ r.entries.length ∧
      r.warningCount = r.entries.countP fun d => !d.isError := by
  have herrors : r.errorCount = r.entries.countP Diagnostic.isError := by
    induction h with
    | empty => rfl
    | push d _ ih =>
      simp only [Report.push, List.countP_append, List.countP_singleton, ih]
      split <;> rfl
  have hlen := List.length_eq_countP_add_countP Diagnostic.isError (l := r.entries)
  refine ⟨herrors, ?_, ?_⟩
  · omega
  · simp only [warningCount, Bool.not_eq_true, Bool.decide_eq_false] at hlen ⊢
    omega

end Report

-- ============================================================================
-- Steps of a session
-- ============================================================================

theorem Problem.isError_diagnostic (p : Problem) (span : Span) :
    (p.diagnostic span).isError = true := rfl

theorem Fault.isError_diagnostic (f : Fault) : f.diagnostic.isError = true := rfl

namespace Session

/-- From `s` to `t` a session adds `ds` to its report. It never takes a giving up back, and it gives
up only with an error to show for it. -/
structure Says (s : Session) (ds : List Diagnostic) (t : Session) : Prop where
  report : t.report = s.report.append ds
  earlierErrors : t.earlierErrors = s.earlierErrors
  isFatal : s.isFatal = true → t.isFatal = true
  gaveUp : t.isFatal = true → s.isFatal = true ∨ ∃ d ∈ ds, d.isError = true

namespace Says

variable {s t u : Session} {ds es : List Diagnostic}

theorem trans (h : s.Says ds t) (h' : t.Says es u) : s.Says (ds ++ es) u where
  report := by rw [h'.report, h.report, Report.append_append]
  earlierErrors := h'.earlierErrors.trans h.earlierErrors
  isFatal hs := h'.isFatal (h.isFatal hs)
  gaveUp hu := by
    rcases h'.gaveUp hu with ht | ⟨d, hd, herr⟩
    · rcases h.gaveUp ht with hs | ⟨d, hd, herr⟩
      · exact Or.inl hs
      · exact Or.inr ⟨d, List.mem_append_left _ hd, herr⟩
    · exact Or.inr ⟨d, List.mem_append_right _ hd, herr⟩

theorem goTo (h : s.Says ds t) (ws : List Word) : s.Says ds (t.goTo ws) :=
  ⟨h.report, h.earlierErrors, h.isFatal, h.gaveUp⟩

theorem keep (h : s.Says ds t) (network : Option System) : s.Says ds (t.keep network) :=
  ⟨h.report, h.earlierErrors, h.isFatal, h.gaveUp⟩

/-- Behind an error a session may give up. -/
theorem giveUp (h : s.Says ds t) (herr : ∃ d ∈ ds, d.isError = true) : s.Says ds t.giveUp :=
  ⟨h.report, h.earlierErrors, fun _ => rfl, fun _ => Or.inr herr⟩

theorem entries (h : s.Says ds t) : t.report.entries = s.report.entries ++ ds := by
  rw [h.report, Report.entries_append]

end Says

theorem says_nil (s : Session) : s.Says [] s := ⟨rfl, rfl, id, Or.inl⟩

theorem says_say (s : Session) (ds : List Diagnostic) : s.Says ds (s.say ds) :=
  ⟨rfl, rfl, id, Or.inl⟩

/-- The errors among what is said are counted. -/
theorem errorCount_say (s : Session) (ds : List Diagnostic) :
    (s.say ds).report.errorCount = s.report.errorCount + ds.countP Diagnostic.isError :=
  Report.errorCount_append s.report ds

-- ============================================================================
-- What is said on the way
-- ============================================================================

/-- From `s` to `t` a session says nothing but diagnostics of a certain kind. -/
def SaysOnly (P : Diagnostic → Prop) (s t : Session) : Prop :=
  ∃ ds, s.Says ds t ∧ ∀ d ∈ ds, P d

namespace SaysOnly

variable {P : Diagnostic → Prop} {s t u : Session}

theorem refl (s : Session) : SaysOnly P s s := ⟨[], s.says_nil, by simp⟩

theorem trans (h : SaysOnly P s t) (h' : SaysOnly P t u) : SaysOnly P s u := by
  obtain ⟨ds, hds, hP⟩ := h
  obtain ⟨es, hes, hP'⟩ := h'
  exact ⟨ds ++ es, hds.trans hes, List.forall_mem_append.mpr ⟨hP, hP'⟩⟩

theorem goTo (h : SaysOnly P s t) (ws : List Word) : SaysOnly P s (t.goTo ws) := by
  obtain ⟨ds, hds, hP⟩ := h
  exact ⟨ds, hds.goTo ws, hP⟩

theorem keep (h : SaysOnly P s t) (network : Option System) : SaysOnly P s (t.keep network) := by
  obtain ⟨ds, hds, hP⟩ := h
  exact ⟨ds, hds.keep network, hP⟩

theorem imp {Q : Diagnostic → Prop} (hPQ : ∀ d, P d → Q d) (h : SaysOnly P s t) :
    SaysOnly Q s t := by
  obtain ⟨ds, hds, hP⟩ := h
  exact ⟨ds, hds, fun d hd => hPQ d (hP d hd)⟩

/-- Giving a network out says nothing more. -/
theorem read (h : SaysOnly P s s.build) : SaysOnly P s s.read.2 := by
  unfold Session.read
  dsimp only
  split
  · exact h
  · exact h.keep none

/-- The fault of a declaration of the network that could not be read. -/
theorem giveUp {f : Fault} (hf : P f.diagnostic) (s : Session) (ws : List Word) :
    SaysOnly P s (((s.say [f.diagnostic]).goTo ws).giveUp) := by
  refine ⟨[f.diagnostic], ?_, List.forall_mem_singleton.mpr hf⟩
  exact ((s.says_say _).goTo ws).giveUp ⟨_, List.mem_singleton_self _, f.isError_diagnostic⟩

/-- Too many errors are one more error. -/
theorem abort {s : Session}
    (h : P ((Problem.tooManyErrors s.errorCount).diagnostic s.current.span)) :
    SaysOnly P s s.abort := by
  refine ⟨[_], ?_, List.forall_mem_singleton.mpr h⟩
  exact (s.says_say _).giveUp ⟨_, List.mem_singleton_self _, Problem.isError_diagnostic _ _⟩

end SaysOnly

/-- All that can be said is of a certain kind, as long as the store is. -/
structure Covers (P : Diagnostic → Prop) (Q : Store → Prop) : Prop where
  fault : ∀ f : Fault, P f.diagnostic
  empty : Q .empty
  line : ∀ s, Q s → ∀ check close ws, ∀ d ∈ (s.enter check close ws).diagnostics, P d
  store : ∀ s, Q s → ∀ check close ws, Q (s.enter check close ws).store
  abort : ∀ count span, P ((Problem.tooManyErrors count).diagnostic span)

/-- Nothing is asked of anything. -/
theorem covers_true : Covers (fun _ => True) fun _ => True :=
  ⟨fun _ => trivial, trivial, fun _ _ _ _ _ _ _ => trivial, fun _ _ _ _ _ => trivial,
    fun _ _ => trivial⟩

namespace Covers

variable {P : Diagnostic → Prop} {Q : Store → Prop}

theorem readHeader (h : Covers P Q) (s : Session) : SaysOnly P s s.readHeader.2 := by
  unfold Session.readHeader
  dsimp only
  split
  · exact (SaysOnly.refl s).goTo _
  · next f _ => exact SaysOnly.giveUp (h.fault f) s _

/-- The loop over the declarations, by the recursion on the words that are left. -/
theorem readDeclarations (h : Covers P Q) (s : Session) (store : Store) (hstore : Q store) :
    SaysOnly P s (s.readDeclarations store).2 := by
  induction s, store using readDeclarations.induct with
  | case1 s store hs =>
    rw [readDeclarations_of_nil store hs]
    exact (SaysOnly.refl s).goTo _
  | case2 s store w ws hs hw =>
    rw [readDeclarations_of_cons store hs, if_pos hw]
    exact (SaysOnly.refl s).goTo _
  | case3 s store w ws hs hw entry next hover =>
    have hentry : SaysOnly P s next :=
      ⟨entry.diagnostics, (s.says_say _).goTo _, h.line store hstore _ _ _⟩
    rw [readDeclarations_of_over hs hw rfl rfl hover]
    exact hentry.trans (.abort (h.abort _ _))
  | case4 s store w ws hs hw entry next hover ih =>
    have hentry : SaysOnly P s next :=
      ⟨entry.diagnostics, (s.says_say _).goTo _, h.line store hstore _ _ _⟩
    rw [readDeclarations_of_not_over hs hw rfl rfl hover]
    exact hentry.trans (ih (h.store store hstore _ _ _))

theorem build (h : Covers P Q) (s : Session) : SaysOnly P s s.build := by
  have hheader := h.readHeader s
  rcases hread : s.readHeader with ⟨network, t⟩
  rw [hread] at hheader
  cases network with
  | none => rwa [build_of_none hread]
  | some network =>
    rw [build_of_some hread]
    exact hheader.trans ((h.readDeclarations t .empty h.empty).keep _)

/-- **One reading.** It says nothing but faults, what is said about lines, and that there are too
many errors. -/
theorem read (h : Covers P Q) (s : Session) : SaysOnly P s s.read.2 := (h.build s).read

/-- Any number of readings. -/
theorem iterate_read (h : Covers P Q) (s : Session) (calls : Nat) :
    SaysOnly P s ((fun t : Session => t.read.2)^[calls] s) := by
  induction calls with
  | zero => exact .refl s
  | succ calls ih =>
    rw [Function.iterate_succ_apply']
    exact ih.trans (h.read _)

end Covers

theorem says_readDeclarations (s : Session) (store : Store) :
    ∃ ds, s.Says ds (s.readDeclarations store).2 := by
  obtain ⟨ds, hsays, -⟩ := covers_true.readDeclarations s store trivial
  exact ⟨ds, hsays⟩

-- ============================================================================
-- Readings
-- ============================================================================

/-- Without the declaration of the network a session has given up. -/
theorem isFatal_of_readHeader {s : Session} (h : s.readHeader.1 = none) :
    s.readHeader.2.isFatal = true := by
  unfold readHeader at h ⊢
  dsimp only at h ⊢
  split
  · next houtcome => simp [houtcome] at h
  · rfl

/-- A session that read the declaration of the network has one behind it, or has given up. -/
theorem says_build (s : Session) :
    ∃ ds, s.Says ds s.build ∧ (s.build.isFatal = true ∨ s.build.network.isSome = true) := by
  obtain ⟨ds, hbuild, -⟩ := covers_true.build s
  refine ⟨ds, hbuild, ?_⟩
  have hgave := @isFatal_of_readHeader s
  rcases hread : s.readHeader with ⟨network, t⟩
  rw [hread] at hgave
  cases network with
  | none =>
    rw [build_of_none hread]
    exact Or.inl (hgave rfl)
  | some network =>
    rw [build_of_some hread]
    exact Or.inr rfl

/-- What a reading says, and the verdict as the session itself comes to it. -/
theorem says_read (s : Session) : ∃ ds, s.Says ds s.read.2 ∧
    (s.read.1.isSome = true ↔ s.build.isFatal = false ∧ s.build.errorCount = 0) ∧
    s.read.2.isFatal = s.build.isFatal ∧ s.read.2.report = s.build.report := by
  obtain ⟨ds, hbuild, hsome⟩ := s.says_build
  refine ⟨ds, ?_⟩
  unfold read
  dsimp only
  split
  · next hbad =>
    refine ⟨hbuild, ?_, rfl, rfl⟩
    simp only [Bool.or_eq_true, bne_iff_ne, ne_eq] at hbad
    simp only [Option.isSome_none, Bool.false_eq_true, false_iff, not_and]
    intro hfatal
    simpa [hfatal] using hbad
  · next hgood =>
    refine ⟨hbuild.keep none, ?_, rfl, rfl⟩
    simp only [Bool.or_eq_true, bne_iff_ne, ne_eq, not_or, Bool.not_eq_true,
      Decidable.not_not] at hgood
    have hnetwork := hsome.resolve_left (by simp [hgood.1])
    simp [hnetwork, hgood]

/-- Where building only leaves something else behind that no verdict looks at, a reading does so
too. -/
theorem read_of_build {s t : Session} (f : Session → Session) (hbuild : t.build = f s.build)
    (hfatal : (f s.build).isFatal = s.build.isFatal)
    (herrors : (f s.build).errorCount = s.build.errorCount)
    (hnetwork : (f s.build).network = s.build.network)
    (hkeep : (f s.build).keep none = f (s.build.keep none)) : t.read = (s.read.1, f s.read.2) := by
  rw [← hbuild] at hfatal herrors hnetwork
  by_cases hgood : s.build.isFatal = false ∧ s.build.errorCount = 0
  · rw [read_of_good hgood.1 hgood.2, read_of_good (hfatal.trans hgood.1) (herrors.trans hgood.2),
      hnetwork, hbuild, hkeep]
  · have hbad : s.build.isFatal = true ∨ s.build.errorCount ≠ 0 := by
      rwa [← Bool.not_eq_false, ← not_and_or]
    rw [read_of_bad hbad, read_of_bad, hbuild]
    rwa [hfatal, herrors]

/-- The errors that a session finds are those that it says. -/
theorem Says.errorCount {s t : Session} {ds : List Diagnostic} (h : s.Says ds t)
    (hs : s.earlierErrors = s.report.errorCount) :
    t.errorCount = ds.countP Diagnostic.isError := by
  rw [Session.errorCount, h.report, h.earlierErrors, hs, Report.errorCount_append]
  omega

/-- Any number of readings, one after the other. -/
theorem says_iterate_read (s : Session) (calls : Nat) :
    ∃ ds, s.Says ds ((fun t : Session => t.read.2)^[calls] s) := by
  obtain ⟨ds, hsays, -⟩ := covers_true.iterate_read s calls
  exact ⟨ds, hsays⟩

/-- The first reading of a new session gives a network exactly if it says no error. -/
theorem says_new_read (ts : List Token) (index : LineIndex) (options : Options) (report : Report) :
    ∃ ds, (new ts index options report).Says ds (new ts index options report).read.2 ∧
      ((new ts index options report).read.1.isSome = true ↔ ∀ d ∈ ds, d.isError = false) := by
  obtain ⟨ds, hread, hsome, hfatal, hreport⟩ := (new ts index options report).says_read
  refine ⟨ds, hread, ?_⟩
  have hcount : (new ts index options report).build.errorCount = ds.countP Diagnostic.isError := by
    obtain ⟨es, hbuild, -⟩ := (new ts index options report).says_build
    rw [← hread.errorCount rfl, errorCount, errorCount, hreport, hread.earlierErrors,
      hbuild.earlierErrors]
  have hzero : ds.countP Diagnostic.isError = 0 ↔ ∀ d ∈ ds, d.isError = false := by
    simp only [List.countP_eq_zero, Bool.not_eq_true]
  rw [hsome, hcount, hzero]
  constructor
  · exact And.right
  · intro hclean
    refine ⟨?_, hclean⟩
    -- a session that has given up has said an error
    rw [← hfatal, ← Bool.not_eq_true]
    intro hgave
    rcases hread.gaveUp hgave with hnew | ⟨d, hd, herr⟩
    · exact absurd hnew (by simp [new])
    · exact absurd herr (by simp [hclean d hd])

/-- **The verdict.** Over any tokens, with any options and behind anything that a report holds
already, the first reading gives a network exactly if it added no error to the report, and a session
has given up only if one of its readings added an error. The count of a report is the number of its
errors, so that a text is read well exactly if no error is counted. -/
theorem read_isSome_iff_no_error :
    (∀ (ts : List Token) (index : LineIndex) (options : Options) (report : Report),
      let s := new ts index options report
      (∃ added, s.read.2.report = report.append added ∧
        s.read.2.report.entries = report.entries ++ added ∧
        (s.read.1.isSome = true ↔ ∀ d ∈ added, d.isError = false)) ∧
      ∀ calls, let t := (fun t : Session => t.read.2)^[calls] s
        ∃ added, t.report = report.append added ∧ t.report.entries = report.entries ++ added ∧
          (t.isFatal = true → ∃ d ∈ added, d.isError = true)) ∧
    (∀ r : Report, r.Reachable →
      r.errorCount = r.entries.countP Diagnostic.isError ∧ r.errorCount ≤ r.entries.length ∧
        r.warningCount = r.entries.countP fun d => !d.isError) ∧
    ∀ (source : String) (options : Options),
      ((parse source options).isOk = true ↔ (parse source options).errorCount = 0) ∧
        ((parse source options).isFatal = true → (parse source options).isOk = false) := by
  refine ⟨fun ts index options report => ⟨?_, fun calls => ?_⟩, fun r hr => hr.counts,
    fun source options => ?_⟩
  · obtain ⟨ds, hread, hsome⟩ := says_new_read ts index options report
    exact ⟨ds, hread.report, hread.entries, hsome⟩
  · obtain ⟨ds, hcalls⟩ := (new ts index options report).says_iterate_read calls
    refine ⟨ds, hcalls.report, hcalls.entries, fun hgave => ?_⟩
    exact (hcalls.gaveUp hgave).resolve_left (by simp [new])
  · obtain ⟨ds, hread, hsome⟩ := says_new_read (Token.scan source) (.ofText source) options .empty
    have hentries : (parse source options).diagnostics = ds := hread.entries
    have herrors : (parse source options).errorCount = 0 ↔ ∀ d ∈ ds, d.isError = false := by
      simp [Parsed.errorCount, Parsed.errors, hentries]
    refine ⟨hsome.trans herrors.symm, fun hgave => ?_⟩
    obtain ⟨d, hd, herr⟩ := (hread.gaveUp hgave).resolve_left (by simp [new])
    rw [← Bool.not_eq_true]
    intro hok
    exact absurd herr (by simp [hsome.mp hok d hd])

end Session

end TimedNet
