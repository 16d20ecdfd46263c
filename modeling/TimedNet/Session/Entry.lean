/-
  TimedNet.Session.Entry

  Entering a declaration into a store: a line is read, its parts are checked in order, and if it is a
  declaration as a whole the store is asked to accept it.
-/
import TimedNet.Grammar.Reading
import TimedNet.Grammar.Phrase
import TimedNet.Store.Acceptance

namespace TimedNet

/-! ## Parts -/

/-- What is to be said about a check that failed. -/
def complaint? {α : Type} : Except Diagnostic α → Option Diagnostic
  | .ok _ => none
  | .error d => some d

namespace Store

/-- The process and the event of a link; of the two, the process is looked up first. -/
def findEnds (s : Store) (process event : Lexeme) : Except Diagnostic (ProcessRef × EventRef) := do
  let p ← s.findProcess process
  let e ← s.findEvent event
  return (p, e)

end Store

namespace Part

/-- What is wrong with a part: a numeral out of range, or a name that is not declared. -/
def fault? (s : Store) : Part → Option Diagnostic
  | .size literal => complaint? literal.size
  | .bound literal => complaint? literal.bound
  | .link process event => complaint? (s.findEnds process event)

end Part

/-! ## Phrases -/

namespace Link

/-- The constraint that a link stands for. -/
def constraint (s : Store) (l : Link) : Except Diagnostic SyncConstraint :=
  (s.findEnds l.process l.event).map fun (p, e) => ⟨p, e, l.strength, l.span⟩

end Link

namespace Lexeme

/-- A numeral for a size, with its value. -/
def sizeNumber (literal : Lexeme) : Number UInt32 := ⟨literal, literal.size.toOption⟩

/-- A numeral for a bound or an initial value, with its value. -/
def boundNumber (literal : Lexeme) : Number Int32 := ⟨literal, literal.bound.toOption⟩

end Lexeme

namespace Phrase

/-- What a phrase is to declare in a store. Links with a name that is not declared are left out. -/
def draft (s : Store) : Phrase → DraftItem
  | .clock size name => .clock size.sizeNumber name
  | .int size min max initial name =>
    .int size.sizeNumber min.boundNumber max.boundNumber initial.boundNumber name
  | .event name => .event name
  | .process name => .process name
  | .location owner name => .location owner name
  | .edge owner target source label => .edge owner target source label
  | .sync links => .sync (links.filterMap fun l => (l.constraint s).toOption)

end Phrase

/-! ## Entries -/

/-- What became of the declaration that words begin with: what is to be said about it, the store
behind it, and the words that are left. -/
structure Entry where
  diagnostics : List Diagnostic
  store : Store
  rest : List Word

namespace Store

/-- Enters the declaration that words begin with into a store; `close` stands behind all words. -/
def enter (check : BoundsCheck) (s : Store) (close : Word) (ws : List Word) : Entry :=
  let reading := Phrase.opening.read ws
  let notes := reading.parts.filterMap (Part.fault? s)
  let rest := reading.left .start close
  match reading.outcome close with
  | .error fault => ⟨notes ++ [fault.diagnostic], s, rest⟩
  | .ok (phrase, attributes) =>
    match s.accept check ⟨phrase.draft s, attributes, reading.span close⟩ with
    | .error d => ⟨notes ++ [d], s, rest⟩
    | .ok acceptance => ⟨notes ++ acceptance.warning.toList, acceptance.store, rest⟩

section Enter

variable {check : BoundsCheck} {s : Store} {close : Word} {ws : List Word}

/-- Words that are no declaration leave the store as it is. -/
theorem enter_of_error {f : Fault} (h : (Phrase.opening.read ws).outcome close = .error f) :
    s.enter check close ws =
      ⟨(Phrase.opening.read ws).parts.filterMap (Part.fault? s) ++ [f.diagnostic], s,
        (Phrase.opening.read ws).left .start close⟩ := by
  simp only [enter, h]

/-- A declaration that is not accepted leaves the store as it is. -/
theorem enter_of_refused {φ : Phrase} {as : Attributes} {d : Diagnostic}
    (h : (Phrase.opening.read ws).outcome close = .ok (φ, as))
    (hrefused : s.accept check ⟨φ.draft s, as, (Phrase.opening.read ws).span close⟩ = .error d) :
    s.enter check close ws =
      ⟨(Phrase.opening.read ws).parts.filterMap (Part.fault? s) ++ [d], s,
        (Phrase.opening.read ws).left .start close⟩ := by
  simp only [enter, h, hrefused]

theorem enter_of_accepted {φ : Phrase} {as : Attributes} {a : Acceptance}
    (h : (Phrase.opening.read ws).outcome close = .ok (φ, as))
    (haccepted : s.accept check ⟨φ.draft s, as, (Phrase.opening.read ws).span close⟩ = .ok a) :
    s.enter check close ws =
      ⟨(Phrase.opening.read ws).parts.filterMap (Part.fault? s) ++ a.warning.toList, a.store,
        (Phrase.opening.read ws).left .start close⟩ := by
  simp only [enter, h, haccepted]

end Enter

@[simp] theorem enter_rest (check : BoundsCheck) (s : Store) (close : Word) (ws : List Word) :
    (s.enter check close ws).rest = (Phrase.opening.read ws).left .start close := by
  simp only [enter]
  split
  · rfl
  · split <;> rfl

end Store

end TimedNet
