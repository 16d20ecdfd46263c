/-
  TimedNet.Diagnostic.Report

  Diagnostics in the order in which they were made, with a count of the errors among them. Several
  readings may write to one report.
-/
import TimedNet.Diagnostic.Basic

namespace TimedNet

structure Report where
  entries : List Diagnostic := []
  /-- How many errors were entered. -/
  errorCount : Nat := 0
deriving DecidableEq

namespace Report

/-- A report with nothing in it. -/
def empty : Report := {}

/-- Enters a diagnostic; an error is counted. -/
def push (r : Report) (d : Diagnostic) : Report :=
  ⟨r.entries ++ [d], if d.isError then r.errorCount + 1 else r.errorCount⟩

/-- Enters diagnostics one after the other. -/
def append (r : Report) (ds : List Diagnostic) : Report := ds.foldl push r

/-- All that is no error is a warning. -/
def warningCount (r : Report) : Nat := r.entries.length - r.errorCount

@[simp] theorem append_nil (r : Report) : r.append [] = r := rfl

@[simp] theorem append_cons (r : Report) (d : Diagnostic) (ds : List Diagnostic) :
    r.append (d :: ds) = (r.push d).append ds := rfl

theorem append_append (r : Report) (ds es : List Diagnostic) :
    r.append (ds ++ es) = (r.append ds).append es := by
  simp [append]

@[simp] theorem entries_append (r : Report) (ds : List Diagnostic) :
    (r.append ds).entries = r.entries ++ ds := by
  induction ds generalizing r with
  | nil => simp
  | cons d ds ih => simp [ih, push]

@[simp] theorem errorCount_append (r : Report) (ds : List Diagnostic) :
    (r.append ds).errorCount = r.errorCount + ds.countP Diagnostic.isError := by
  induction ds generalizing r with
  | nil => simp
  | cons d ds ih =>
    have hpush : (r.push d).errorCount = r.errorCount + if d.isError then 1 else 0 := by
      rw [push]
      split <;> rfl
    rw [append_cons, ih, hpush, List.countP_cons]
    omega

end Report

end TimedNet
