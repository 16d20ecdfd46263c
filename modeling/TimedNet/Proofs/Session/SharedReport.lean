/-
  TimedNet.Proofs.Session.SharedReport

  Sessions that share a report do not disturb each other. `s.behind r` is the session `s` as it is
  if the report `r` was there first. A session counts errors from where it began, so each of its
  steps does the same behind another report (`lockstep_behind`, `read_behind`), and what
  it says does not depend on what others have said.
-/
import TimedNet.Proofs.Session.Lockstep

namespace TimedNet

-- ============================================================================
-- Reports behind others
-- ============================================================================

namespace Report

/-- A report whose entries stand behind those of another. -/
def behind (q r : Report) : Report := ⟨r.entries ++ q.entries, r.errorCount + q.errorCount⟩

@[simp] theorem empty_behind (r : Report) : Report.empty.behind r = r := by
  simp [behind, empty]

theorem push_behind (q r : Report) (d : Diagnostic) :
    (q.push d).behind r = (q.behind r).push d := by
  simp only [behind, push, List.append_assoc, mk.injEq, true_and]
  split <;> rfl

/-- What is entered goes to the end, whatever stands first. -/
theorem append_behind (q r : Report) (ds : List Diagnostic) :
    (q.append ds).behind r = (q.behind r).append ds := by
  induction ds generalizing q with
  | nil => rfl
  | cons d ds ih => rw [append_cons, append_cons, ih, push_behind]

end Report

-- ============================================================================
-- Sessions behind a report
-- ============================================================================

namespace Session

/-- The session as it is if a report was there before it began. -/
def behind (s : Session) (r : Report) : Session :=
  { s with report := s.report.behind r, earlierErrors := r.errorCount + s.earlierErrors }

section Behind

variable (s : Session) (r : Report)

@[simp] theorem words_behind : (s.behind r).words = s.words := rfl

theorem goTo_behind (ws : List Word) : (s.behind r).goTo ws = (s.goTo ws).behind r := rfl

theorem keep_behind (network : Option System) :
    (s.behind r).keep network = (s.keep network).behind r := rfl

theorem giveUp_behind : (s.behind r).giveUp = s.giveUp.behind r := rfl

theorem say_behind (ds : List Diagnostic) : (s.behind r).say ds = (s.say ds).behind r := by
  simp only [say, behind, Report.append_behind]

/-- The errors of others are not counted. -/
@[simp] theorem errorCount_behind : (s.behind r).errorCount = s.errorCount :=
  Nat.add_sub_add_left _ _ _

@[simp] theorem isOverLimit_behind : (s.behind r).isOverLimit = s.isOverLimit := by
  have hoptions : (s.behind r).options = s.options := rfl
  rw [isOverLimit, isOverLimit, hoptions, errorCount_behind]

theorem abort_behind : (s.behind r).abort = s.abort.behind r := by
  have hcurrent : (s.behind r).current = s.current := rfl
  rw [abort, abort, errorCount_behind, hcurrent, say_behind, giveUp_behind]

-- ============================================================================
-- Steps
-- ============================================================================

/-- The declaration of the network. -/
theorem readHeader_behind :
    (s.behind r).readHeader = (s.readHeader.1, s.readHeader.2.behind r) := by
  have hclose : (s.behind r).close = s.close := rfl
  unfold readHeader
  rw [words_behind, hclose]
  dsimp only
  split
  · rfl
  · rw [say_behind, goTo_behind, giveUp_behind]

/-- A session goes in lockstep with itself behind a report. -/
theorem lockstep_behind : Lockstep Eq Eq Eq fun s t => t = s.behind r where
  kind _ _ h := congrArg Word.kind h
  words := by
    rintro s _ rfl
    exact List.forall₂_same.mpr fun _ _ => rfl
  goTo := by
    rintro s _ rfl ws vs h
    rw [List.forall₂_eq_eq_eq] at h
    subst h
    exact s.goTo_behind r ws
  keep := by
    rintro s _ rfl m n h
    rw [rel_eq_iff] at h
    subst h
    exact s.keep_behind r m
  isOverLimit := by
    rintro s _ rfl
    exact (s.isOverLimit_behind r).symm
  abort := by
    rintro s _ rfl
    exact s.abort_behind r
  readHeader := by
    rintro s _ rfl
    rw [readHeader_behind, rel_eq_iff]
    exact ⟨rfl, rfl⟩
  empty := rfl
  turn := by
    rintro s _ rfl a _ rfl ws vs h
    rw [List.forall₂_eq_eq_eq] at h
    subst h
    refine ⟨rfl, ?_⟩
    rw [pass, say_behind, goTo_behind]
    rfl
  filled := by
    rintro m _ rfl a _ rfl
    rfl
  verdict := by
    rintro s _ rfl
    exact ⟨rfl, (s.errorCount_behind r).symm⟩
  network := by
    rintro s _ rfl
    rw [rel_eq_iff]
    rfl

/-- **One reading.** Behind another report it gives out the same and says the same. -/
theorem read_behind : (s.behind r).read = (s.read.1, s.read.2.behind r) := by
  obtain ⟨hnetwork, hsession⟩ := (lockstep_behind r).read (s := s) rfl
  rw [rel_eq_iff] at hnetwork
  exact Prod.ext hnetwork.symm hsession

/-- Any number of readings. -/
theorem iterate_read_behind (calls : Nat) :
    (fun t : Session => t.read.2)^[calls] (s.behind r) =
      ((fun t : Session => t.read.2)^[calls] s).behind r :=
  (lockstep_behind r).iterate_read (s := s) rfl calls

end Behind

-- ============================================================================
-- Shared reports
-- ============================================================================

/-- A new session is one over the empty report, behind another. -/
theorem new_behind (ts : List Token) (index : LineIndex) (options : Options) (r : Report) :
    new ts index options r = (new ts index options .empty).behind r := by
  have hreport : Report.empty.behind r = r := r.empty_behind
  simp only [new, behind, hreport]
  rfl

/-- **Shared reports.** Sessions over the same tokens with the same options that write to two
reports do the same, however often they are read on: they give out the same networks, give up at
the same time, and add the same diagnostics behind what the reports hold. -/
theorem read_independent_of_report (ts : List Token) (index : LineIndex) (options : Options)
    (r r' : Report) (calls : Nat) :
    let s := (fun t : Session => t.read.2)^[calls] (new ts index options r)
    let s' := (fun t : Session => t.read.2)^[calls] (new ts index options r')
    s.read.1 = s'.read.1 ∧ s.isFatal = s'.isFatal ∧
      ∃ added, s.report = r.append added ∧ s.report.entries = r.entries ++ added ∧
        s'.report = r'.append added ∧ s'.report.entries = r'.entries ++ added := by
  let t := (fun t : Session => t.read.2)^[calls] (new ts index options .empty)
  obtain ⟨added, hsays⟩ := (new ts index options .empty).says_iterate_read calls
  have hreport : ∀ q : Report, (t.behind q).report = q.append added := by
    intro q
    have hadded : t.report = Report.empty.append added := hsays.report
    show t.report.behind q = q.append added
    rw [hadded, Report.append_behind, Report.empty_behind]
  have hsession : ∀ q : Report,
      (fun t : Session => t.read.2)^[calls] (new ts index options q) = t.behind q := by
    intro q
    rw [new_behind, iterate_read_behind]
  intro s s'
  have hs : s = t.behind r := hsession r
  have hs' : s' = t.behind r' := hsession r'
  rw [hs, hs', read_behind, read_behind, hreport, hreport]
  exact ⟨rfl, rfl, added, rfl, Report.entries_append r added, rfl, Report.entries_append r' added⟩

end Session

end TimedNet
