/-
  TimedNet.Store.Submission

  Drafts that come one by one from outside of a text. Each is accepted into the store or turned down,
  and what is said about it goes to a report.
-/
import TimedNet.Store.Acceptance
import TimedNet.Diagnostic.Report

namespace TimedNet

/-- What became of a draft: the id of its declaration, if it was accepted, and the store and the
report behind it. -/
structure Submission where
  id? : Option DeclarationId
  store : Store
  report : Report

namespace Store

/-- Submits a draft to a store. A draft that is not accepted leaves the store as it is. -/
def submit (check : BoundsCheck) (s : Store) (r : Report) (d : Draft) : Submission :=
  match s.accept check d with
  | .ok a => ⟨some a.id, a.store, r.append a.warning.toList⟩
  | .error e => ⟨none, s, r.push e⟩

variable {s : Store} {check : BoundsCheck} {r : Report} {d : Draft}

theorem submit_of_ok {a : Acceptance} (h : s.accept check d = .ok a) :
    s.submit check r d = ⟨some a.id, a.store, r.append a.warning.toList⟩ := by
  simp only [submit, h]

theorem submit_of_error {e : Diagnostic} (h : s.accept check d = .error e) :
    s.submit check r d = ⟨none, s, r.push e⟩ := by
  simp only [submit, h]

end Store

end TimedNet
