/-
  TimedNet.Store.Acceptance

  From drafts to declarations. A draft is accepted in steps: its name has to be free, its numbers
  have to make sense, what it refers to has to be declared, and the store has to take it. The first
  step that fails gives the one error; then the store stays as it is.
-/
import TimedNet.Declaration.Draft
import TimedNet.Diagnostic.Problem

namespace TimedNet

/-- What is to be done about an initial value outside of its bounds. -/
inductive BoundsCheck where
  | ignore
  | warn
  | error
deriving DecidableEq

/-! ## Numerals -/

namespace Lexeme

/-- The size that a numeral stands for. -/
def size (literal : Lexeme) : Except Diagnostic UInt32 :=
  (Numeral.unsigned literal.text).mapError fun e =>
    (Problem.unsignedRange e).diagnostic literal.span

/-- The bound or initial value that a numeral stands for. -/
def bound (literal : Lexeme) : Except Diagnostic Int32 :=
  (Numeral.signed literal.text).mapError fun e => (Problem.signedRange e).diagnostic literal.span

end Lexeme

/-- Passes unless the size was read as 0. -/
def Number.checkSize (size : Number UInt32) (kind : Kind) (name : Lexeme) :
    Except Diagnostic Unit :=
  if size.value = some 0 then
    .error ((Problem.zeroSize kind name.text).diagnostic size.literal.span)
  else .ok ()

/-- The problem of a variable whose name a variable of a kind holds. -/
def Problem.ofVariable (declared : Kind) (name : String) (holder : Kind) : Problem :=
  if holder = declared then .redeclared declared name else .variableClash name holder

namespace Store

/-! ## Names -/

/-- The process of a given name. -/
def findProcess (s : Store) (process : Lexeme) : Except Diagnostic ProcessRef :=
  match s.process? process.text with
  | some r => .ok r
  | none => .error ((Problem.undeclaredProcess process.text).diagnostic process.span)

/-- The event of a given name. -/
def findEvent (s : Store) (event : Lexeme) : Except Diagnostic EventRef :=
  match s.event? event.text with
  | some r => .ok r
  | none => .error ((Problem.undeclaredEvent event.text).diagnostic event.span)

/-- The location of a given name in a process, `r`, that is known by a name too. -/
def findLocation (s : Store) (r : ProcessRef) (process location : Lexeme) :
    Except Diagnostic LocationRef :=
  match s.location? r location.text with
  | some l => .ok l
  | none =>
    .error ((Problem.undeclaredLocation location.text process.text).diagnostic location.span)

/-- The pointer to the declaration that holds a name already. -/
def previous (s : Store) (id : DeclarationId) : List Related :=
  (s.get? id).toList.map fun d => ⟨"previous declaration", d.span⟩

/-- Passes if a name is free; otherwise the problem depends on the kind of the holder. -/
def checkFree (s : Store) (scope : Scope) (name : Lexeme) (problem : Kind → Problem) :
    Except Diagnostic Unit :=
  match s.holder? scope name.text with
  | none => .ok ()
  | some id =>
    .error { (problem id.kind).diagnostic name.span with related := s.previous id }

/-! ## Steps -/

/-- What a draft declares, once its names are looked up. A number without value counts as 0. -/
def resolve (s : Store) : DraftItem → Except Diagnostic Item
  | .clock size name => do
    s.checkFree .variables name (.ofVariable .clock name.text)
    size.checkSize .clock name
    return .clock name.text (size.value.getD 0)
  | .int size min max initial name => do
    s.checkFree .variables name (.ofVariable .int name.text)
    size.checkSize .int name
    return .int name.text (size.value.getD 0) (min.value.getD 0) (max.value.getD 0)
      (initial.value.getD 0)
  | .event name => do
    s.checkFree .events name fun _ => .redeclared .event name.text
    return .event name.text
  | .process name => do
    s.checkFree .processes name fun _ => .redeclared .process name.text
    return .process name.text
  | .location process name => do
    let p ← s.findProcess process
    s.checkFree (.locations p) name fun _ => .redeclaredLocation name.text process.text
    return .location p name.text
  | .edge process target source event => do
    let p ← s.findProcess process
    let t ← s.findLocation p process target
    let o ← s.findLocation p process source
    let e ← s.findEvent event
    return .edge p t o e
  | .sync constraints => return .sync constraints

end Store

namespace DraftItem

/-- The problem of an integer variable whose initial value lies outside of its bounds. It cannot be
told if one of the three numbers has no value. -/
def boundsProblem? : DraftItem → Option Diagnostic
  | .int _ lower upper initial name =>
    match lower.value, upper.value, initial.value with
    | some lo, some hi, some v =>
      if InBounds lo hi v then none
      else some ((Problem.initialBounds name.text lo hi v).diagnostic initial.literal.span)
    | _, _, _ => none
  | _ => none

/-- Checks the bounds of a draft as strictly as asked, and passes with at most a warning. -/
def checkBounds (i : DraftItem) (check : BoundsCheck) : Except Diagnostic (Option Diagnostic) :=
  match check, i.boundsProblem? with
  | .warn, some d => .ok (some { d with severity := .warning })
  | .error, some d => .error d
  | _, _ => .ok none

end DraftItem

/-! ## Acceptance -/

namespace Store

/-- A draft that was accepted: the id of the declaration, the store that has it, and a warning. -/
structure Acceptance where
  id : DeclarationId
  store : Store
  warning : Option Diagnostic

/-- Adds what a draft declares to a store, or tells the one error that keeps it out. -/
def accept (check : BoundsCheck) (s : Store) (d : Draft) : Except Diagnostic Acceptance := do
  let item ← s.resolve d.item
  let warning ← d.item.checkBounds check
  match s.insert ⟨item, d.attributes, d.span⟩ with
  | .ok (id, store) => return ⟨id, store, warning⟩
  | .error e => .error ((Problem.refused d.kind e).diagnostic d.span)

end Store

end TimedNet
