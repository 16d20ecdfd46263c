/-
  TimedNet.Session.Basic

  A session reads the tokens of one text and writes to a report, which may hold diagnostics of
  others. The first line that is not blank has to declare the network; every other one is entered on
  its own, so that a bad line does not hide the faults of the next. There is a network as the result
  only if nothing was wrong.
-/
import TimedNet.Diagnostic.Report
import TimedNet.Session.Entry
import TimedNet.System

namespace TimedNet

structure Options where
  /-- The name of the source, for the diagnostics. -/
  sourceName : Option String := none
  /-- The number of errors above which a session gives up. -/
  maxErrors : Option Nat := none
  boundsCheck : BoundsCheck := .ignore
deriving DecidableEq

/-- The state of a session. -/
structure Session where
  options : Options
  /-- The words that are left to read. -/
  words : List Word
  /-- What ends the text. -/
  close : Word
  report : Report
  /-- The errors that the report held when the session began. -/
  earlierErrors : Nat
  /-- The network that was read and not yet given out. -/
  network : Option System
  /-- Whether the session has given up. -/
  isFatal : Bool

namespace Session

/-- A session over tokens, whose places an index tells. -/
def new (ts : List Token) (index : LineIndex) (options : Options) (report : Report) : Session :=
  { options := options
    words := ts.map (Token.word index)
    close := (Token.endOfFile index).word index
    report := report
    earlierErrors := report.errorCount
    network := none
    isFatal := false }

/-- The number of errors that the session has found. -/
def errorCount (s : Session) : Nat := s.report.errorCount - s.earlierErrors

/-- Whether there are more errors than the options allow. -/
def isOverLimit (s : Session) : Bool :=
  match s.options.maxErrors with
  | some limit => limit < s.errorCount
  | none => false

/-- Without a limit there are never too many errors. -/
theorem not_isOverLimit_of_none {s : Session} (h : s.options.maxErrors = none) :
    ¬ s.isOverLimit = true := by
  rw [isOverLimit, h]
  exact Bool.false_ne_true

/-- The word that the session has before it. -/
def current (s : Session) : Word := s.words.headD s.close

/-- Adds diagnostics to the report. -/
def say (s : Session) (ds : List Diagnostic) : Session := { s with report := s.report.append ds }

/-- Goes on with other words. -/
def goTo (s : Session) (ws : List Word) : Session := { s with words := ws }

/-- Keeps a network, or lets go of it. -/
def keep (s : Session) (network : Option System) : Session := { s with network := network }

/-- Gives up. -/
def giveUp (s : Session) : Session := { s with isFatal := true }

/-! ## The network itself -/

/-- Reads the declaration of the network off the first line that is not blank. If that is none, the
session gives up and goes to the end of the text. -/
def readHeader (s : Session) : Option System × Session :=
  let reading := Header.opening.read (skipLineEnds s.words)
  let rest := reading.left .header s.close
  match reading.outcome s.close with
  | .ok (name, attributes) =>
    (some (.new name.text attributes (reading.span s.close)), s.goTo rest)
  | .error fault => (none, ((s.say [fault.diagnostic]).goTo rest).giveUp)

/-! ## Declarations -/

/-- Complains about too many errors where the session stands, and gives up. -/
def abort (s : Session) : Session :=
  (s.say [(Problem.tooManyErrors s.errorCount).diagnostic s.current.span]).giveUp

/-- Enters declarations into a store, one by one, until the text ends or there are too many errors. -/
def readDeclarations (s : Session) (store : Store) : Store × Session :=
  match _hs : skipLineEnds s.words with
  | [] => (store, s.goTo [])
  | w :: ws =>
    if _hw : w.kind = .endOfFile then (store, s.goTo (w :: ws))
    else
      let entry := store.enter s.options.boundsCheck s.close (w :: ws)
      let next := (s.say entry.diagnostics).goTo entry.rest
      if next.isOverLimit then (entry.store, next.abort) else next.readDeclarations entry.store
termination_by s.words.length
decreasing_by
  have hline := not_isLineEnd_of_skipLineEnds _hs
  have hends := TokenKind.endsDeclaration_eq_false (by simpa [Word.isLineEnd] using hline) _hw
  have hlen := length_skipLineEnds_le s.words
  have hrest := Phrase.opening.length_left_lt (c := .start) rfl s.close hends ws
  rw [_hs] at hlen
  simp only [goTo, Store.enter_rest]
  exact Nat.lt_of_lt_of_le hrest hlen

/-- When nothing is left there is nothing to enter. -/
theorem readDeclarations_of_nil {s : Session} (store : Store) (h : skipLineEnds s.words = []) :
    s.readDeclarations store = (store, s.goTo []) := by
  rw [readDeclarations]
  split
  · rfl
  · next hs => simp [h] at hs

/-- The first word that ends no line either ends the text or begins a declaration. -/
theorem readDeclarations_of_cons {s : Session} (store : Store) {w : Word} {ws : List Word}
    (h : skipLineEnds s.words = w :: ws) :
    s.readDeclarations store =
      if w.kind = .endOfFile then (store, s.goTo (w :: ws))
      else
        let entry := store.enter s.options.boundsCheck s.close (w :: ws)
        let next := (s.say entry.diagnostics).goTo entry.rest
        if next.isOverLimit then (entry.store, next.abort)
        else next.readDeclarations entry.store := by
  rw [readDeclarations]
  split
  · next hs => simp [h] at hs
  · next hs =>
    obtain ⟨rfl, rfl⟩ := List.cons.inj (hs.symm.trans h)
    split <;> rfl

/-- The loop ends behind a declaration with which there are too many errors. -/
theorem readDeclarations_of_over {s next : Session} {store : Store} {entry : Entry} {w : Word}
    {ws : List Word} (hs : skipLineEnds s.words = w :: ws) (hw : ¬ w.kind = .endOfFile)
    (hentry : store.enter s.options.boundsCheck s.close (w :: ws) = entry)
    (hnext : (s.say entry.diagnostics).goTo entry.rest = next) (hover : next.isOverLimit = true) :
    s.readDeclarations store = (entry.store, next.abort) := by
  subst hentry hnext
  rw [readDeclarations_of_cons store hs, if_neg hw]
  exact if_pos hover

/-- The loop goes on behind a declaration with which there are not too many errors. -/
theorem readDeclarations_of_not_over {s next : Session} {store : Store} {entry : Entry} {w : Word}
    {ws : List Word} (hs : skipLineEnds s.words = w :: ws) (hw : ¬ w.kind = .endOfFile)
    (hentry : store.enter s.options.boundsCheck s.close (w :: ws) = entry)
    (hnext : (s.say entry.diagnostics).goTo entry.rest = next)
    (hover : ¬ next.isOverLimit = true) :
    s.readDeclarations store = next.readDeclarations entry.store := by
  subst hentry hnext
  rw [readDeclarations_of_cons store hs, if_neg hw]
  exact if_neg hover

/-! ## Reading a text -/

/-- Reads the declaration of the network and all others. -/
def build (s : Session) : Session :=
  match s.readHeader with
  | (none, s) => s
  | (some network, s) =>
    let (store, s) := s.readDeclarations .empty
    s.keep (some { network with store := store })

/-- Reads what is left of the text. The network is given out only if the session has not given up
and has found no error since it began. -/
def read (s : Session) : Option System × Session :=
  let s := s.build
  if s.isFatal || s.errorCount != 0 then (none, s) else (s.network, s.keep none)

/-- Without the declaration of the network nothing else is read. -/
theorem build_of_none {s t : Session} (h : s.readHeader = (none, t)) : s.build = t := by
  rw [build, h]

/-- The network comes with the store that the loop over the declarations leaves behind. -/
theorem build_of_some {s t : Session} {network : System} (h : s.readHeader = (some network, t)) :
    s.build = (t.readDeclarations .empty).2.keep
      (some { network with store := (t.readDeclarations .empty).1 }) := by
  rw [build, h]

theorem read_of_good {s : Session} (hfatal : s.build.isFatal = false)
    (herrors : s.build.errorCount = 0) : s.read = (s.build.network, s.build.keep none) := by
  simp [read, hfatal, herrors]

theorem read_of_bad {s : Session} (h : s.build.isFatal = true ∨ s.build.errorCount ≠ 0) :
    s.read = (none, s.build) := by
  rw [read]
  exact if_pos (by simpa using h)

end Session

end TimedNet
