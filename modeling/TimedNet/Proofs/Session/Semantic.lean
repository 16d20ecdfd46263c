/-
  TimedNet.Proofs.Session.Semantic

  The checks of a declaration that was read find no fault in its syntax: when one fails, its error
  has the code of another group.
-/
import TimedNet.Session.Entry

namespace TimedNet

/-- The codes of the groups 01 and 02. -/
def Code.isSyntactic (c : Code) : Bool :=
  [Code.invalidToken, .unexpectedToken, .unexpectedEnd].contains c

def Diagnostic.isSyntactic (d : Diagnostic) : Bool := d.code.isSyntactic

theorem Fault.isSyntactic_diagnostic (f : Fault) : f.diagnostic.isSyntactic = true := by
  have hcode : f.diagnostic.code = (Problem.unexpected f.found.kind f.found.text f.expected).code :=
    rfl
  rw [Diagnostic.isSyntactic, hcode]
  cases f.found.kind <;> rfl

-- ============================================================================
-- Checks
-- ============================================================================

theorem bind_eq_ok_iff {α β : Type} {x : Except Diagnostic α} {f : α → Except Diagnostic β}
    {b : β} :
    x >>= f = .ok b ↔ ∃ a, x = .ok a ∧ f a = .ok b := by
  cases x <;> simp [bind, Except.bind]

theorem bind_eq_error_iff {α β : Type} {x : Except Diagnostic α} {f : α → Except Diagnostic β}
    {d : Diagnostic} :
    x >>= f = .error d ↔ x = .error d ∨ ∃ a, x = .ok a ∧ f a = .error d := by
  cases x <;> simp [bind, Except.bind]

theorem pure_eq_ok_iff {α : Type} {a b : α} : (pure a : Except Diagnostic α) = .ok b ↔ b = a := by
  simp [pure, Except.pure, eq_comm]

/-- A check that fails with certain diagnostics only. -/
def FailsWith {α : Type} (P : Diagnostic → Prop) (check : Except Diagnostic α) : Prop :=
  ∀ d, check = .error d → P d

namespace FailsWith

variable {α β : Type} {P : Diagnostic → Prop}

theorem ok (a : α) : FailsWith P (.ok a) := fun _ h => absurd h (by simp)

theorem pure (a : α) : FailsWith P (Pure.pure a : Except Diagnostic α) := ok a

theorem error {d : Diagnostic} (h : P d) : FailsWith P (.error d : Except _ α) :=
  fun _ he => Except.error.inj he ▸ h

theorem imp {Q : Diagnostic → Prop} {check : Except Diagnostic α} (h : FailsWith P check)
    (hPQ : ∀ d, P d → Q d) : FailsWith Q check := fun d hd => hPQ d (h d hd)

/-- Of checks one after the other, the first that fails is the one that is told of. -/
theorem bind {check : Except Diagnostic α} {next : α → Except Diagnostic β}
    (h : FailsWith P check) (hnext : ∀ a, FailsWith P (next a)) : FailsWith P (check >>= next) := by
  intro d hd
  rcases bind_eq_error_iff.mp hd with hd | ⟨a, -, hd⟩
  · exact h d hd
  · exact hnext a d hd

theorem complaint {check : Except Diagnostic α} (h : FailsWith P check) {d : Diagnostic}
    (hd : complaint? check = some d) : P d := by
  cases check with
  | ok a => exact absurd hd (by simp [complaint?])
  | error e => exact Option.some.inj hd ▸ h e rfl

end FailsWith

/-- A check that fails with an error only, and with none of the syntax. -/
def IsSemantic {α : Type} (check : Except Diagnostic α) : Prop :=
  ∀ d, check = .error d → d.isError = true ∧ d.isSyntactic = false

namespace IsSemantic

variable {α β : Type}

theorem ok (a : α) : IsSemantic (.ok a) := FailsWith.ok a

theorem pure (a : α) : IsSemantic (Pure.pure a) := FailsWith.pure a

theorem error {d : Diagnostic} (herr : d.isError = true) (h : d.isSyntactic = false) :
    IsSemantic (.error d : Except _ α) :=
  FailsWith.error ⟨herr, h⟩

theorem bind {check : Except Diagnostic α} {next : α → Except Diagnostic β}
    (h : IsSemantic check) (hnext : ∀ a, IsSemantic (next a)) : IsSemantic (check >>= next) :=
  FailsWith.bind h hnext

/-- What a check complains about is no fault of the syntax. -/
theorem complaint {check : Except Diagnostic α} (h : IsSemantic check) {d : Diagnostic}
    (hd : complaint? check = some d) : d.isError = true ∧ d.isSyntactic = false :=
  FailsWith.complaint h hd

end IsSemantic

theorem isSemantic_size (literal : Lexeme) : IsSemantic literal.size := by
  unfold Lexeme.size
  cases Numeral.unsigned literal.text with
  | ok n => exact .ok n
  | error e => exact .error rfl rfl

theorem isSemantic_bound (literal : Lexeme) : IsSemantic literal.bound := by
  unfold Lexeme.bound
  cases Numeral.signed literal.text with
  | ok n => exact .ok n
  | error e => exact .error rfl rfl

/-- What is looked at when a draft is resolved: its names, and the numeral of its size. -/
def DraftItem.checked : DraftItem → List Lexeme
  | .clock size name => [size.literal, name]
  | .int size _ _ _ name => [size.literal, name]
  | .event name => [name]
  | .process name => [name]
  | .location owner name => [owner, name]
  | .edge owner target source label => [owner, target, source, label]
  | .sync _ => []

namespace DraftItem

variable {i : DraftItem} {check : BoundsCheck} {d : Diagnostic}

/-- A problem with bounds is one of a variable of which all three numbers were read. -/
theorem exists_int_of_boundsProblem (h : i.boundsProblem? = some d) :
    ∃ size lower upper initial name lo hi v, i = .int size lower upper initial name ∧
      lower.value = some lo ∧ upper.value = some hi ∧ initial.value = some v ∧
      d = (Problem.initialBounds name.text lo hi v).diagnostic initial.literal.span := by
  cases i with
  | int size lower upper initial name =>
    simp only [boundsProblem?] at h
    split at h
    · next lo hi v hlo hhi hv =>
      split at h
      · exact absurd h (by simp)
      · obtain rfl := Option.some.inj h
        exact ⟨size, lower, upper, initial, name, lo, hi, v, rfl, hlo, hhi, hv, rfl⟩
    · exact absurd h (by simp)
  | _ => exact absurd h (by simp [boundsProblem?])

theorem code_of_boundsProblem (h : i.boundsProblem? = some d) : d.code = .initialBounds := by
  obtain ⟨_, _, _, _, _, _, _, _, -, -, -, -, rfl⟩ := exists_int_of_boundsProblem h
  rfl

/-- What the check of bounds tells is that problem, as an error or as a warning. -/
theorem boundsProblem_of_checkBounds
    (h : i.checkBounds check = .error d ∨ i.checkBounds check = .ok (some d)) :
    ∃ e, i.boundsProblem? = some e ∧ d = { e with severity := d.severity } := by
  unfold checkBounds at h
  split at h
  · next e he =>
    have hd : d = { e with severity := .warning } := by simpa [eq_comm] using h
    exact ⟨e, he, by rw [hd]⟩
  · next e he =>
    have hd : d = e := by simpa [eq_comm] using h
    exact ⟨e, he, by rw [hd]⟩
  · exact absurd h (by simp)

theorem code_of_checkBounds
    (h : i.checkBounds check = .error d ∨ i.checkBounds check = .ok (some d)) :
    d.code = .initialBounds := by
  obtain ⟨e, he, hd⟩ := boundsProblem_of_checkBounds h
  have hcode := code_of_boundsProblem he
  rw [hd]
  exact hcode

end DraftItem

namespace Problem

/-- The problems of names that are taken. -/
def IsTaken : Problem → Prop
  | .redeclared .. | .redeclaredLocation .. | .variableClash .. => True
  | _ => False

/-- The problems that the checks of a draft tell of. -/
def IsOfCheck : Problem → Prop
  | .zeroSize .. | .undeclaredProcess .. | .undeclaredLocation .. | .undeclaredEvent .. => True
  | p => p.IsTaken

theorem isTaken_ofVariable (declared holder : Kind) (name : String) :
    (ofVariable declared name holder).IsTaken := by
  unfold ofVariable
  split <;> trivial

theorem IsTaken.isOfCheck {p : Problem} (h : p.IsTaken) : p.IsOfCheck := by
  cases p <;> first | exact h | exact absurd h not_false

/-- The problems that the checks of a draft tell of are neither about the syntax nor about what a
store refuses. -/
theorem IsOfCheck.code {p : Problem} (h : p.IsOfCheck) :
    p.code.isSyntactic = false ∧ p.code ≠ .refused := by
  cases p <;> first | exact absurd h not_false | exact ⟨rfl, by simp [Problem.code]⟩

/-- A problem is told as an error, which may point to other places too. -/
def ToldBy (p : Problem) (d : Diagnostic) : Prop :=
  ∃ span related, d = { p.diagnostic span with related := related }

end Problem

namespace Store

/-- The checks of a store, held against certain lexemes, fail with certain diagnostics only. -/
structure ChecksFailWith (P : Diagnostic → Prop) (s : Store) (xs : List Lexeme) : Prop where
  process : ∀ l ∈ xs, FailsWith P (s.findProcess l)
  event : ∀ l ∈ xs, FailsWith P (s.findEvent l)
  location : ∀ p owner, ∀ l ∈ xs, FailsWith P (s.findLocation p owner l)
  free : ∀ scope problem, (∀ k, (problem k).IsTaken) →
    ∀ name ∈ xs, FailsWith P (s.checkFree scope name problem)
  size : ∀ (size : Number UInt32) kind name, size.literal ∈ xs →
    FailsWith P (size.checkSize kind name)

namespace ChecksFailWith

variable {P : Diagnostic → Prop} {s : Store}

/-- A draft is not resolved because of one of the checks. -/
theorem resolve {i : DraftItem} (h : s.ChecksFailWith P i.checked) : FailsWith P (s.resolve i) := by
  cases i with
  | clock size name =>
    refine (h.free _ _ ?_ name (by simp [DraftItem.checked])).bind fun _ => ?_
    · exact fun k => Problem.isTaken_ofVariable _ k _
    · exact (h.size size .clock name (by simp [DraftItem.checked])).bind fun _ => .pure _
  | int size min max initial name =>
    refine (h.free _ _ ?_ name (by simp [DraftItem.checked])).bind fun _ => ?_
    · exact fun k => Problem.isTaken_ofVariable _ k _
    · exact (h.size size .int name (by simp [DraftItem.checked])).bind fun _ => .pure _
  | event name =>
    refine (h.free _ _ ?_ name (by simp [DraftItem.checked])).bind fun _ => .pure _
    exact fun _ => trivial
  | process name =>
    refine (h.free _ _ ?_ name (by simp [DraftItem.checked])).bind fun _ => .pure _
    exact fun _ => trivial
  | location owner name =>
    refine (h.process owner (by simp [DraftItem.checked])).bind fun _ => ?_
    refine (h.free _ _ ?_ name (by simp [DraftItem.checked])).bind fun _ => .pure _
    exact fun _ => trivial
  | edge owner target source label =>
    refine (h.process owner (by simp [DraftItem.checked])).bind fun _ => ?_
    refine (h.location _ _ target (by simp [DraftItem.checked])).bind fun _ => ?_
    refine (h.location _ _ source (by simp [DraftItem.checked])).bind fun _ => ?_
    exact (h.event label (by simp [DraftItem.checked])).bind fun _ => .pure _
  | sync constraints => exact .pure _

/-- Looking up the ends of a link fails only as its checks do. -/
theorem findEnds {owner label : Lexeme} (h : s.ChecksFailWith P [owner, label]) :
    FailsWith P (s.findEnds owner label) := by
  refine (h.process owner (by simp)).bind fun _ => ?_
  exact (h.event label (by simp)).bind fun _ => .pure _

end ChecksFailWith

/-- Each check that fails tells of one of its problems. -/
theorem checks_tell (s : Store) (xs : List Lexeme) :
    s.ChecksFailWith (fun d => ∃ p : Problem, p.IsOfCheck ∧ p.ToldBy d) xs where
  process l _ := by
    unfold findProcess
    split
    · exact .ok _
    · exact .error ⟨.undeclaredProcess l.text, trivial, l.span, [], rfl⟩
  event l _ := by
    unfold findEvent
    split
    · exact .ok _
    · exact .error ⟨.undeclaredEvent l.text, trivial, l.span, [], rfl⟩
  location p owner l _ := by
    unfold findLocation
    split
    · exact .ok _
    · exact .error ⟨.undeclaredLocation l.text owner.text, trivial, l.span, [], rfl⟩
  free scope problem hproblem name _ := by
    unfold checkFree
    split
    · exact .ok _
    · next id _ =>
      exact .error ⟨problem id.kind, (hproblem id.kind).isOfCheck, name.span, s.previous id, rfl⟩
  size size kind name _ := by
    unfold Number.checkSize
    split
    · exact .error ⟨.zeroSize kind name.text, trivial, size.literal.span, [], rfl⟩
    · exact .ok _

theorem isSemantic_of_told {p : Problem} (hp : p.IsOfCheck) {d : Diagnostic} (h : p.ToldBy d) :
    d.isError = true ∧ d.isSyntactic = false := by
  obtain ⟨span, related, rfl⟩ := h
  exact ⟨rfl, hp.code.1⟩

theorem isSemantic_resolve (s : Store) (i : DraftItem) : IsSemantic (s.resolve i) :=
  (s.checks_tell i.checked).resolve.imp fun _ ⟨_, hp, h⟩ => isSemantic_of_told hp h

theorem isSemantic_findEnds (s : Store) (owner label : Lexeme) :
    IsSemantic (s.findEnds owner label) :=
  (s.checks_tell [owner, label]).findEnds.imp fun _ ⟨_, hp, h⟩ => isSemantic_of_told hp h

/-- A problem with bounds is not one of the syntax. -/
theorem isSemantic_of_boundsProblem {i : DraftItem} {d : Diagnostic}
    (h : i.boundsProblem? = some d) : d.isError = true ∧ d.isSyntactic = false := by
  obtain ⟨_, _, _, _, _, _, _, _, -, -, -, -, rfl⟩ := DraftItem.exists_int_of_boundsProblem h
  exact ⟨rfl, rfl⟩

theorem isSemantic_checkBounds (i : DraftItem) (check : BoundsCheck) :
    IsSemantic (i.checkBounds check) := by
  unfold DraftItem.checkBounds
  split
  · exact .ok _
  · next d hd => exact .error (isSemantic_of_boundsProblem hd).1 (isSemantic_of_boundsProblem hd).2
  · exact .ok _

/-- A warning is about bounds. -/
theorem isWarning_of_checkBounds {i : DraftItem} {check : BoundsCheck} {d : Diagnostic}
    (h : i.checkBounds check = .ok (some d)) : d.isError = false ∧ d.isSyntactic = false := by
  unfold DraftItem.checkBounds at h
  split at h
  · next e he =>
    obtain rfl := Option.some.inj (Except.ok.inj h)
    exact ⟨rfl, (isSemantic_of_boundsProblem he).2⟩
  · exact absurd h (by simp)
  · exact absurd h (by simp)

/-- Behind the checks of a draft, only the store can refuse it. -/
theorem accept_of_resolve {s : Store} {check : BoundsCheck} {d : Draft} {item : Item}
    {warning : Option Diagnostic} (hitem : s.resolve d.item = .ok item)
    (hbounds : d.item.checkBounds check = .ok warning) :
    s.accept check d =
      match s.fault? item with
      | some e => .error ((Problem.refused d.kind e).diagnostic d.span)
      | none => .ok ⟨s.nextId item.kind, s.push ⟨item, d.attributes, d.span⟩, warning⟩ := by
  unfold Store.accept
  rw [hitem, hbounds]
  simp only [bind, Except.bind, insert]
  cases s.fault? item <;> rfl

/-- **What can become of a draft.** One of its checks fails, or the store refuses what passed them, or
takes it. -/
theorem accept_cases (check : BoundsCheck) (s : Store) (d : Draft) :
    (∃ e, s.resolve d.item = .error e ∧ s.accept check d = .error e) ∨
    (∃ e, d.item.checkBounds check = .error e ∧ s.accept check d = .error e) ∨
    (∃ i w e, s.resolve d.item = .ok i ∧ d.item.checkBounds check = .ok w ∧
      s.fault? i = some e ∧
      s.accept check d = .error ((Problem.refused d.kind e).diagnostic d.span)) ∨
    ∃ i w, s.resolve d.item = .ok i ∧ d.item.checkBounds check = .ok w ∧ s.fault? i = none ∧
      s.accept check d = .ok ⟨s.nextId i.kind, s.push ⟨i, d.attributes, d.span⟩, w⟩ := by
  cases hitem : s.resolve d.item with
  | error e => exact Or.inl ⟨e, rfl, bind_eq_error_iff.mpr (Or.inl hitem)⟩
  | ok i =>
    right
    cases hbounds : d.item.checkBounds check with
    | error e =>
      refine Or.inl ⟨e, rfl, bind_eq_error_iff.mpr (Or.inr ⟨i, hitem, ?_⟩)⟩
      exact bind_eq_error_iff.mpr (Or.inl hbounds)
    | ok w =>
      right
      have haccept := accept_of_resolve hitem hbounds
      cases hfault : s.fault? i with
      | some e => exact Or.inl ⟨i, w, e, rfl, rfl, hfault, by rw [haccept, hfault]⟩
      | none => exact Or.inr ⟨i, w, rfl, rfl, hfault, by rw [haccept, hfault]⟩

/-- What an acceptance was made of. -/
theorem accept_eq_ok_cases {check : BoundsCheck} {s : Store} {d : Draft} {a : Acceptance}
    (h : s.accept check d = .ok a) :
    ∃ i w, s.resolve d.item = .ok i ∧ d.item.checkBounds check = .ok w ∧ s.fault? i = none ∧
      a = ⟨s.nextId i.kind, s.push ⟨i, d.attributes, d.span⟩, w⟩ := by
  rcases s.accept_cases check d with ⟨e, -, he⟩ | ⟨e, -, he⟩ | ⟨i, w, e, -, -, -, he⟩ |
    ⟨i, w, hresolve, hbounds, hfault, ha⟩
  · exact absurd (h.symm.trans he) (by simp)
  · exact absurd (h.symm.trans he) (by simp)
  · exact absurd (h.symm.trans he) (by simp)
  · exact ⟨i, w, hresolve, hbounds, hfault, Except.ok.inj (h.symm.trans ha)⟩

/-- What an acceptance warns of is what the check of the bounds found. -/
theorem checkBounds_of_accept {check : BoundsCheck} {s : Store} {d : Draft} {a : Acceptance}
    (h : s.accept check d = .ok a) : d.item.checkBounds check = .ok a.warning := by
  obtain ⟨item, warning, -, hbounds, -, rfl⟩ := accept_eq_ok_cases h
  exact hbounds

theorem isSemantic_accept (check : BoundsCheck) (s : Store) (d : Draft) :
    IsSemantic (s.accept check d) := by
  refine (s.isSemantic_resolve d.item).bind fun item => ?_
  refine (isSemantic_checkBounds d.item check).bind fun warning => ?_
  split
  · exact .pure _
  · exact .error rfl rfl

theorem isWarning_of_accept {check : BoundsCheck} {s : Store} {d : Draft} {a : Acceptance}
    (h : s.accept check d = .ok a) {w : Diagnostic} (hw : a.warning = some w) :
    w.isError = false ∧ w.isSyntactic = false := by
  have hbounds := checkBounds_of_accept h
  rw [hw] at hbounds
  exact isWarning_of_checkBounds hbounds

end Store

/-- What is said about a part is an error, but none of the syntax. -/
theorem Part.isSemantic_of_fault {s : Store} {part : Part} {d : Diagnostic}
    (h : part.fault? s = some d) : d.isError = true ∧ d.isSyntactic = false := by
  cases part with
  | size literal => exact (isSemantic_size literal).complaint h
  | bound literal => exact (isSemantic_bound literal).complaint h
  | link process event => exact (s.isSemantic_findEnds process event).complaint h

-- ============================================================================
-- Entries
-- ============================================================================

/-- **What can become of a line.** It is not read to its end, or the store refuses what it declares,
or takes it. Whatever is wrong with its parts is said before. -/
theorem Store.enter_cases (check : BoundsCheck) (s : Store) (close : Word) (ws : List Word) :
    let reading := Phrase.opening.read ws
    let notes := reading.parts.filterMap (Part.fault? s)
    let entry := s.enter check close ws
    (∃ f, reading.outcome close = .error f ∧ entry.diagnostics = notes ++ [f.diagnostic] ∧
      entry.store = s) ∨
    (∃ φ as d, reading.outcome close = .ok (φ, as) ∧
      s.accept check ⟨φ.draft s, as, reading.span close⟩ = .error d ∧
      entry.diagnostics = notes ++ [d] ∧ entry.store = s) ∨
    ∃ φ as a, reading.outcome close = .ok (φ, as) ∧
      s.accept check ⟨φ.draft s, as, reading.span close⟩ = .ok a ∧
      entry.diagnostics = notes ++ a.warning.toList ∧ entry.store = a.store := by
  intro reading notes entry
  cases houtcome : reading.outcome close with
  | error f =>
    have hentry : entry = _ := enter_of_error houtcome
    exact Or.inl ⟨f, rfl, congrArg Entry.diagnostics hentry, congrArg Entry.store hentry⟩
  | ok result =>
    obtain ⟨φ, as⟩ := result
    right
    cases haccept : s.accept check ⟨φ.draft s, as, reading.span close⟩ with
    | error d =>
      have hentry : entry = _ := enter_of_refused houtcome haccept
      exact Or.inl
        ⟨φ, as, d, rfl, haccept, congrArg Entry.diagnostics hentry, congrArg Entry.store hentry⟩
    | ok a =>
      have hentry : entry = _ := enter_of_accepted houtcome haccept
      exact Or.inr
        ⟨φ, as, a, rfl, haccept, congrArg Entry.diagnostics hentry, congrArg Entry.store hentry⟩

/-- **Where a diagnostic of a line comes from.** It is about a part of the line, it is the fault of
the line, the store refuses with it what the line declares, or it is what the check of the bounds
found. -/
theorem Store.cause_of_enter {check : BoundsCheck} {s : Store} {close : Word} {ws : List Word}
    {d : Diagnostic} (h : d ∈ (s.enter check close ws).diagnostics) :
    (∃ part ∈ (Phrase.opening.read ws).parts, part.fault? s = some d) ∨
    (∃ f, (Phrase.opening.read ws).outcome close = .error f ∧ d = f.diagnostic) ∨
    ∃ φ as, (Phrase.opening.read ws).outcome close = .ok (φ, as) ∧
      (s.accept check ⟨φ.draft s, as, (Phrase.opening.read ws).span close⟩ = .error d ∨
        (φ.draft s).checkBounds check = .ok (some d)) := by
  rcases s.enter_cases check close ws with ⟨f, houtcome, hsaid, -⟩ |
    ⟨φ, as, e, houtcome, haccept, hsaid, -⟩ | ⟨φ, as, a, houtcome, haccept, hsaid, -⟩
  all_goals
    rw [hsaid] at h
    rcases List.mem_append.mp h with h | h
    · exact Or.inl (List.mem_filterMap.mp h)
  · exact Or.inr (Or.inl ⟨f, houtcome, List.mem_singleton.mp h⟩)
  · obtain rfl := List.mem_singleton.mp h
    exact Or.inr (Or.inr ⟨φ, as, houtcome, Or.inl haccept⟩)
  · have hbounds := checkBounds_of_accept haccept
    rw [Option.mem_toList.mp h] at hbounds
    exact Or.inr (Or.inr ⟨φ, as, houtcome, Or.inr hbounds⟩)

end TimedNet
