/-
  TimedNet.Proofs.Session.Conditions

  When a draft is accepted. Each kind of draft comes with a list of conditions (`Draft.conditions`),
  each of which is a statement about the declarations of the store or about the numbers of the draft.
  A draft is accepted exactly if all of them hold, and otherwise the first that fails tells the error
  (`Store.submit_decides`).
-/
import TimedNet.Proofs.Session.Submission

namespace TimedNet

-- ============================================================================
-- Conditions
-- ============================================================================

/-- What has to be the case for a draft to be accepted. -/
inductive Condition where
  /-- The name of a declaration of some kind is free. -/
  | free (scope : Scope) (kind : Kind) (name : Lexeme)
  /-- The name of a location is free in the process of a given name. -/
  | freeIn (owner name : Lexeme)
  /-- The size of a variable was not read as 0. -/
  | sized (size : Number UInt32) (kind : Kind) (name : Lexeme)
  /-- The initial value of a variable lies within its bounds, where that is checked. -/
  | bounded (min max initial : Number Int32) (name : Lexeme)
  /-- A process is declared. -/
  | process (name : Lexeme)
  /-- A location is declared in the process of a given name. -/
  | location (owner name : Lexeme)
  /-- An event is declared. -/
  | event (name : Lexeme)
  /-- What a synchronization refers to is there. -/
  | present (check : Check) (span : Span)

/-- The conditions of a draft, in the order in which they are checked. -/
def Draft.conditions (d : Draft) : List Condition :=
  match d.item with
  | .clock size name => [.free .variables .clock name, .sized size .clock name]
  | .int size min max initial name =>
    [.free .variables .int name, .sized size .int name, .bounded min max initial name]
  | .event name => [.free .events .event name]
  | .process name => [.free .processes .process name]
  | .location owner name => [.process owner, .freeIn owner name]
  | .edge owner target source label =>
    [.process owner, .location owner target, .location owner source, .event label]
  | .sync constraints => (Item.sync constraints).checks.map (.present · d.span)

namespace Store

/-- A declaration of a store has a name in a namespace. -/
def Declares (s : Store) (key : Scope × String) : Prop := ∃ d ∈ s.declarations, d.key? = some key

instance (s : Store) (key : Scope × String) : Decidable (s.Declares key) :=
  inferInstanceAs (Decidable (∃ d ∈ s.declarations, d.key? = some key))

/-- A reference leads to the process of a given name. -/
def IsProcess (s : Store) (p : ProcessRef) (name : String) : Prop :=
  ∃ d, s.get? p.id = some d ∧ d.key? = some (.processes, name)

variable {s : Store}

theorem Reachable.ref?_eq_none_iff (hs : s.Reachable) {k : Kind} {scope : Scope}
    (hscope : scope.kinds = [k]) {name : String} :
    s.ref? k scope name = none ↔ ¬ s.Declares (scope, name) := by
  rw [Option.eq_none_iff_forall_ne_some]
  constructor
  · rintro hnone ⟨d, hd, hkey⟩
    obtain ⟨id, hid⟩ := Log.exists_mem_entries hd
    have hkind : d.kind = k := by simpa [hscope] using kind_mem_kinds_of_key hkey
    obtain rfl : id.kind = k := (kind_of_mem_entries hid).symm.trans hkind
    exact hnone ⟨id.index⟩ ((hs.keeps.ref?_eq_some_iff hscope).mpr ⟨d, hid, hkey⟩)
  · rintro hnot r hr
    obtain ⟨d, hmem, hkey⟩ := (hs.keeps.ref?_eq_some_iff hscope).mp hr
    exact hnot ⟨d, Log.snd_mem_of_mem_entries hmem, hkey⟩

theorem Reachable.process?_eq_some_iff (hs : s.Reachable) {name : String} {p : ProcessRef} :
    s.process? name = some p ↔ s.IsProcess p name := by
  constructor
  · exact hs.get?_of_ref? (k := .process) rfl
  · rintro ⟨d, hget, hkey⟩
    exact (hs.keeps.ref?_eq_some_iff rfl).mpr ⟨d, hs.keeps.mem_entries_of_get? hget, hkey⟩

end Store

namespace Condition

/-- What a condition says. -/
def Holds (check : BoundsCheck) (s : Store) : Condition → Prop
  | .free scope _ name => s.IsFree (scope, name.text)
  | .freeIn owner name => ∀ p, s.IsProcess p owner.text → s.IsFree (.locations p, name.text)
  | .sized size _ _ => size.value ≠ some 0
  | .bounded min max initial _ => check = .error → ∀ lo hi v,
    min.value = some lo → max.value = some hi → initial.value = some v → InBounds lo hi v
  | .process name => s.Declares (.processes, name.text)
  | .location owner name =>
    ∃ p, s.IsProcess p owner.text ∧ s.Declares (.locations p, name.text)
  | .event name => s.Declares (.events, name.text)
  | .present c _ => c.Holds s

/-- The error that tells of a condition that fails. A name that is taken comes with the place of the
declaration that has it; of two variables of one name it matters whether they are of one kind. -/
def Tells (s : Store) (e : Diagnostic) : Condition → Prop
  | .free scope kind name => ∃ d ∈ s.declarations, d.key? = some (scope, name.text) ∧
    e = { code := if d.kind = kind then .redeclared else .variableClash
          span := name.span
          message := (Problem.ofVariable kind name.text d.kind).message
          related := [⟨"previous declaration", d.span⟩] }
  | .freeIn owner name => ∃ p, s.IsProcess p owner.text ∧
    ∃ d ∈ s.declarations, d.key? = some (.locations p, name.text) ∧
      e = { code := .redeclared
            span := name.span
            message := (Problem.redeclaredLocation name.text owner.text).message
            related := [⟨"previous declaration", d.span⟩] }
  | .sized size kind name =>
    e = { code := .zeroSize
          span := size.literal.span
          message := (Problem.zeroSize kind name.text).message }
  | .bounded min max initial name => ∃ lo hi v,
    min.value = some lo ∧ max.value = some hi ∧ initial.value = some v ∧
      e = { code := .initialBounds
            span := initial.literal.span
            message := (Problem.initialBounds name.text lo hi v).message }
  | .process name =>
    e = { code := .undeclaredProcess
          span := name.span
          message := (Problem.undeclaredProcess name.text).message }
  | .location owner name =>
    e = { code := .undeclaredLocation
          span := name.span
          message := (Problem.undeclaredLocation name.text owner.text).message }
  | .event name =>
    e = { code := .undeclaredEvent
          span := name.span
          message := (Problem.undeclaredEvent name.text).message }
  | .present c span => ∃ reason, c.Tells s reason ∧
    e = { code := .refused
          span := span
          message := (Problem.refused .sync reason).message }

/-- The error that a store finds with a condition. -/
def fault? (check : BoundsCheck) (s : Store) : Condition → Option Diagnostic
  | .free scope kind name => complaint? (s.checkFree scope name (.ofVariable kind name.text))
  | .freeIn owner name => (s.process? owner.text).bind fun p =>
    complaint? (s.checkFree (.locations p) name fun _ => .redeclaredLocation name.text owner.text)
  | .sized size kind name => complaint? (size.checkSize kind name)
  -- the size has no part in this
  | .bounded min max initial name =>
    complaint? ((DraftItem.int ⟨name, none⟩ min max initial name).checkBounds check)
  | .process name => complaint? (s.findProcess name)
  | .location owner name =>
    match s.process? owner.text with
    | some p => complaint? (s.findLocation p owner name)
    | none => some ((Problem.undeclaredLocation name.text owner.text).diagnostic name.span)
  | .event name => complaint? (s.findEvent name)
  | .present c span => (c.fault? s).map fun reason => (Problem.refused .sync reason).diagnostic span

end Condition

-- ============================================================================
-- One condition
-- ============================================================================

namespace Store

variable {s : Store}

/-- A look-up by name fails exactly if no declaration has the name, and then in one way only. -/
theorem Reachable.complaint?_of_ref? (hs : s.Reachable) {k : Kind} {scope : Scope}
    (hscope : scope.kinds = [k]) {name : String} {check : Except Diagnostic (Ref k)}
    {d : Diagnostic} (hfound : ∀ r, s.ref? k scope name = some r → check = .ok r)
    (hmissing : s.ref? k scope name = none → check = .error d) :
    complaint? check = if s.Declares (scope, name) then none else some d := by
  have hnone : s.ref? k scope name = none ↔ ¬ s.Declares (scope, name) :=
    hs.ref?_eq_none_iff hscope
  split
  · next hdeclares =>
    obtain ⟨r, hr⟩ := Option.ne_none_iff_exists'.mp (mt hnone.mp (not_not.mpr hdeclares))
    rw [hfound r hr]
    rfl
  · next hnot =>
    rw [hmissing (hnone.mpr hnot)]
    rfl

theorem Reachable.complaint?_findProcess (hs : s.Reachable) (l : Lexeme) :
    complaint? (s.findProcess l) = if s.Declares (.processes, l.text) then none
      else some ((Problem.undeclaredProcess l.text).diagnostic l.span) := by
  refine hs.complaint?_of_ref? (k := .process) rfl (fun r hr => ?_) fun hr => ?_
  · exact findProcess_eq_ok_iff.mpr hr
  · simp only [findProcess, process?, hr]

theorem Reachable.complaint?_findEvent (hs : s.Reachable) (l : Lexeme) :
    complaint? (s.findEvent l) = if s.Declares (.events, l.text) then none
      else some ((Problem.undeclaredEvent l.text).diagnostic l.span) := by
  refine hs.complaint?_of_ref? (k := .event) rfl (fun r hr => ?_) fun hr => ?_
  · exact findEvent_eq_ok_iff.mpr hr
  · simp only [findEvent, event?, hr]

theorem Reachable.complaint?_findLocation (hs : s.Reachable) (p : ProcessRef) (owner l : Lexeme) :
    complaint? (s.findLocation p owner l) = if s.Declares (.locations p, l.text) then none
      else some ((Problem.undeclaredLocation l.text owner.text).diagnostic l.span) := by
  refine hs.complaint?_of_ref? (k := .location) rfl (fun r hr => ?_) fun hr => ?_
  · exact findLocation_eq_ok_iff.mpr hr
  · simp only [findLocation, location?, hr]

theorem complaint?_checkFree_eq_none_iff (hs : s.Reachable) {scope : Scope} {name : Lexeme}
    {problem : Kind → Problem} :
    complaint? (s.checkFree scope name problem) = none ↔ s.IsFree (scope, name.text) := by
  rw [complaint?_eq_none_iff, ← hs.keeps.holder?_eq_none_iff]
  exact ⟨fun ⟨_, h⟩ => checkFree_eq_ok_iff.mp h, fun h => ⟨(), checkFree_eq_ok_iff.mpr h⟩⟩

/-- A name that is taken is told of with the declaration that has it. -/
theorem of_complaint?_checkFree (hs : s.Reachable) {scope : Scope} {name : Lexeme}
    {problem : Kind → Problem} {e : Diagnostic}
    (h : complaint? (s.checkFree scope name problem) = some e) :
    ∃ d ∈ s.declarations, d.key? = some (scope, name.text) ∧
      e = { (problem d.kind).diagnostic name.span with
        related := [⟨"previous declaration", d.span⟩] } := by
  unfold checkFree at h
  split at h
  · exact absurd h (by simp [complaint?])
  · next id hid =>
    obtain ⟨d, hmem, hkey⟩ := hs.keeps.holder?_eq_some_iff.mp hid
    have hprevious : s.previous id = [⟨"previous declaration", d.span⟩] := by
      simp [previous, hs.keeps.get?_of_mem hmem]
    obtain rfl := Option.some.inj h
    refine ⟨d, Log.snd_mem_of_mem_entries hmem, hkey, ?_⟩
    rw [hprevious, kind_of_mem_entries hmem]

/-- The bounds of a variable are found fault with exactly if they are to be checked and the initial
value, as far as all three are known, is not within them. -/
theorem complaint?_checkBounds_eq_none_iff {check : BoundsCheck} {size : Number UInt32}
    {min max initial : Number Int32} {name : Lexeme} :
    complaint? ((DraftItem.int size min max initial name).checkBounds check) = none ↔
      (Condition.bounded min max initial name).Holds check s := by
  have hproblem : (DraftItem.int size min max initial name).boundsProblem? = none ↔
      ∀ lo hi v, min.value = some lo → max.value = some hi → initial.value = some v →
        InBounds lo hi v := by
    simp only [DraftItem.boundsProblem?]
    split
    · next lo hi v hlo hhi hv => simp [hlo, hhi, hv]
    · next hmissing =>
      simp only [true_iff]
      exact fun lo hi v hlo hhi hv => (hmissing lo hi v hlo hhi hv).elim
  rw [Condition.Holds, ← hproblem]
  unfold DraftItem.checkBounds
  cases check <;>
    cases (DraftItem.int size min max initial name).boundsProblem? <;> simp [complaint?]

theorem of_complaint?_checkBounds {check : BoundsCheck} {size : Number UInt32}
    {min max initial : Number Int32} {name : Lexeme} {e : Diagnostic}
    (h : complaint? ((DraftItem.int size min max initial name).checkBounds check) = some e) :
    (Condition.bounded min max initial name).Tells s e := by
  have hbounds := complaint?_eq_some_iff.mp h
  unfold DraftItem.checkBounds at hbounds
  split at hbounds
  · exact absurd hbounds (by simp)
  · next d hd =>
    obtain rfl := Except.error.inj hbounds
    obtain ⟨_, _, _, _, _, lo, hi, v, hint, hlo, hhi, hv, rfl⟩ :=
      DraftItem.exists_int_of_boundsProblem hd
    cases hint
    exact ⟨lo, hi, v, hlo, hhi, hv, rfl⟩
  · exact absurd hbounds (by simp)

end Store

theorem eq_of_ite_none {α : Type} {p : Prop} [Decidable p] {a b : α}
    (h : (if p then none else some a) = some b) : b = a :=
  (Option.some.inj (Option.ite_none_left_eq_some.mp h).2).symm

/-- **One condition.** A fault is found with it exactly if it fails, and the fault tells of it. -/
theorem Condition.holds_fault? {s : Store} (hs : s.Reachable) (check : BoundsCheck) (c : Condition) :
    (c.fault? check s = none ↔ c.Holds check s) ∧ ∀ e, c.fault? check s = some e → c.Tells s e := by
  cases c with
  | free scope kind name =>
    refine ⟨Store.complaint?_checkFree_eq_none_iff hs, fun e he => ?_⟩
    obtain ⟨d, hd, hkey, rfl⟩ := Store.of_complaint?_checkFree hs he
    refine ⟨d, hd, hkey, ?_⟩
    simp only [Problem.diagnostic, Problem.ofVariable]
    split <;> rfl
  | freeIn owner name =>
    constructor
    · simp only [fault?, Holds, Option.bind_eq_none_iff, ← hs.process?_eq_some_iff]
      exact forall₂_congr fun p _ => Store.complaint?_checkFree_eq_none_iff hs
    · intro e he
      obtain ⟨p, hp, he⟩ := Option.bind_eq_some_iff.mp he
      obtain ⟨d, hd, hkey, rfl⟩ := Store.of_complaint?_checkFree hs he
      exact ⟨p, hs.process?_eq_some_iff.mp hp, d, hd, hkey, rfl⟩
  | sized size kind name =>
    simp only [fault?, Holds, Tells, Number.checkSize]
    split <;> simp_all [complaint?, Problem.diagnostic, Problem.code]
  | bounded min max initial name =>
    exact ⟨Store.complaint?_checkBounds_eq_none_iff, fun e => Store.of_complaint?_checkBounds⟩
  | process name =>
    rw [fault?, hs.complaint?_findProcess]
    exact ⟨by simp [Holds], fun _ he => eq_of_ite_none he⟩
  | location owner name =>
    simp only [fault?, Holds, Tells, ← hs.process?_eq_some_iff]
    cases s.process? owner.text with
    | none => exact ⟨by simp, fun e he => (Option.some.inj he).symm⟩
    | some p =>
      simp only [Option.some.injEq, exists_eq_left', hs.complaint?_findLocation]
      exact ⟨by simp, fun _ he => eq_of_ite_none he⟩
  | event name =>
    rw [fault?, hs.complaint?_findEvent]
    exact ⟨by simp [Holds], fun _ he => eq_of_ite_none he⟩
  | present c span =>
    obtain ⟨hholds, htells⟩ := hs.keeps.check_fault c
    refine ⟨Option.map_eq_none_iff.trans hholds, fun e he => ?_⟩
    obtain ⟨reason, hreason, rfl⟩ := Option.map_eq_some_iff.mp he
    exact ⟨reason, ((htells reason).mp hreason).2, rfl⟩

-- ============================================================================
-- All conditions of a draft
-- ============================================================================

section Checks

variable {α β : Type} {x : Except Diagnostic α}

/-- Of two checks the second complains only if the first passes. -/
theorem complaint?_bind {f : α → Except Diagnostic β} {o : Option Diagnostic}
    (h : ∀ a, x = .ok a → complaint? (f a) = o) : complaint? (x >>= f) = (complaint? x).or o := by
  cases hx : x with
  | error d => rfl
  | ok a => exact (h a hx).trans (Option.none_or).symm

theorem complaint?_bind_pure {f : α → β} :
    complaint? (x >>= fun a => pure (f a)) = complaint? x := by
  cases x <;> rfl

theorem findSome?_cons_eq_or (f : α → Option β) (a : α) (as : List α) :
    (a :: as).findSome? f = (f a).or (as.findSome? f) := by
  rw [List.findSome?_cons]
  cases f a <;> rfl

end Checks

namespace Store

variable {s : Store}

/-- In a namespace of one kind the holder of a name is of that kind. -/
theorem Reachable.checkFree_ofVariable (hs : s.Reachable) {k : Kind} {scope : Scope}
    (hscope : scope.kinds = [k]) (name : Lexeme) :
    s.checkFree scope name (.ofVariable k name.text) =
      s.checkFree scope name fun _ => .redeclared k name.text := by
  unfold checkFree
  split
  · rfl
  · next id hid =>
    obtain ⟨d, hmem, hkey⟩ := hs.keeps.holder?_eq_some_iff.mp hid
    have hkind : d.kind = k := by simpa [hscope] using kind_mem_kinds_of_key hkey
    have hid : id.kind = k := (kind_of_mem_entries hmem).symm.trans hkind
    rw [hid, Problem.ofVariable, if_pos rfl]

/-- What keeps a draft out that is no synchronization: its names and its size come before its
bounds, and the store has nothing to add. -/
theorem Reachable.complaint?_accept_eq_or (hs : s.Reachable) (check : BoundsCheck) {d : Draft}
    (hkind : d.item.kind ≠ .sync) :
    complaint? (s.accept check d) =
      (complaint? (s.resolve d.item)).or (complaint? (d.item.checkBounds check)) := by
  cases hresolve : s.resolve d.item with
  | error e =>
    have haccept : s.accept check d = .error e := bind_eq_error_iff.mpr (Or.inl hresolve)
    rw [haccept]
    rfl
  | ok i =>
    cases hbounds : d.item.checkBounds check with
    | error e =>
      have haccept : s.accept check d = .error e :=
        bind_eq_error_iff.mpr (Or.inr ⟨i, hresolve, bind_eq_error_iff.mpr (Or.inl hbounds)⟩)
      rw [haccept]
      rfl
    | ok w =>
      rw [accept_of_resolve hresolve hbounds, hs.fault?_of_resolve hkind hresolve]
      rfl

/-- Only integer variables have bounds. -/
theorem Reachable.complaint?_accept_eq_resolve (hs : s.Reachable) (check : BoundsCheck) {d : Draft}
    (hsync : d.item.kind ≠ .sync) (hint : d.item.kind ≠ .int) :
    complaint? (s.accept check d) = complaint? (s.resolve d.item) := by
  have hproblem : d.item.boundsProblem? = none := by
    obtain ⟨item, attributes, span⟩ := d
    cases item with
    | int => exact absurd rfl hint
    | _ => rfl
  rw [hs.complaint?_accept_eq_or check hsync, DraftItem.checkBounds_of_none hproblem]
  exact Option.or_none

/-- **What keeps a draft out** is the fault of the first of its conditions that has one. -/
theorem Reachable.complaint?_accept (hs : s.Reachable) (check : BoundsCheck) (d : Draft) :
    complaint? (s.accept check d) = d.conditions.findSome? (Condition.fault? check s) := by
  obtain ⟨item, attributes, span⟩ := d
  cases item with
  | clock size name =>
    rw [hs.complaint?_accept_eq_resolve check (by simp [DraftItem.kind]) (by simp [DraftItem.kind])]
    simp only [Draft.conditions, findSome?_cons_eq_or, List.findSome?_nil, Option.or_none]
    exact complaint?_bind fun _ _ => complaint?_bind_pure
  | int size min max initial name =>
    rw [hs.complaint?_accept_eq_or check (by simp [DraftItem.kind])]
    simp only [Draft.conditions, findSome?_cons_eq_or, List.findSome?_nil, Option.or_none,
      ← Option.or_assoc]
    exact congrArg (Option.or · _) (complaint?_bind fun _ _ => complaint?_bind_pure)
  | event name =>
    rw [hs.complaint?_accept_eq_resolve check (by simp [DraftItem.kind]) (by simp [DraftItem.kind])]
    simp only [Draft.conditions, List.findSome?_singleton, Condition.fault?,
      hs.checkFree_ofVariable (show Scope.events.kinds = [.event] from rfl)]
    exact complaint?_bind_pure
  | process name =>
    rw [hs.complaint?_accept_eq_resolve check (by simp [DraftItem.kind]) (by simp [DraftItem.kind])]
    simp only [Draft.conditions, List.findSome?_singleton, Condition.fault?,
      hs.checkFree_ofVariable (show Scope.processes.kinds = [.process] from rfl)]
    exact complaint?_bind_pure
  | location owner name =>
    rw [hs.complaint?_accept_eq_resolve check (by simp [DraftItem.kind]) (by simp [DraftItem.kind])]
    simp only [Draft.conditions, findSome?_cons_eq_or, List.findSome?_nil, Option.or_none]
    refine complaint?_bind fun p hp => ?_
    rw [Condition.fault?, findProcess_eq_ok_iff.mp hp, Option.bind_some]
    exact complaint?_bind_pure
  | edge owner target source label =>
    rw [hs.complaint?_accept_eq_resolve check (by simp [DraftItem.kind]) (by simp [DraftItem.kind])]
    simp only [Draft.conditions, findSome?_cons_eq_or, List.findSome?_nil, Option.or_none]
    refine complaint?_bind fun p hp => ?_
    have hlocation : ∀ l, (Condition.location owner l).fault? check s =
        complaint? (s.findLocation p owner l) := fun l => by
      rw [Condition.fault?, findProcess_eq_ok_iff.mp hp]
    rw [hlocation, hlocation]
    exact complaint?_bind fun _ _ => complaint?_bind fun _ _ => complaint?_bind_pure
  | sync constraints =>
    have hbounds : (DraftItem.sync constraints).checkBounds check = .ok none :=
      DraftItem.checkBounds_of_none rfl check
    have hresolve : s.resolve (.sync constraints) = .ok (.sync constraints) := rfl
    have hfault : complaint? (s.accept check ⟨.sync constraints, attributes, span⟩) =
        (s.fault? (.sync constraints)).map fun reason =>
          (Problem.refused .sync reason).diagnostic span := by
      rw [accept_of_resolve hresolve hbounds]
      cases s.fault? (.sync constraints) <;> rfl
    rw [hfault, fault?_eq_findSome?, List.map_findSome?, Draft.conditions, List.findSome?_map]
    rfl

/-- **The conditions decide.** A draft that is submitted to a reachable store is accepted exactly if
all its conditions hold. Otherwise one error is said, which tells of the first condition that
fails. -/
theorem submit_decides (hs : s.Reachable) (check : BoundsCheck) (r : Report) (d : Draft) :
    ((s.submit check r d).id?.isSome ↔ ∀ c ∈ d.conditions, c.Holds check s) ∧
    ∀ front c back, d.conditions = front ++ c :: back → (∀ c' ∈ front, c'.Holds check s) →
      ¬ c.Holds check s →
        ∃ e, c.Tells s e ∧ (s.submit check r d).id? = none ∧
          (s.submit check r d).report = r.append [e] := by
  have hfirst := hs.complaint?_accept check d
  constructor
  · have hforall : d.conditions.findSome? (Condition.fault? check s) = none ↔
        ∀ c ∈ d.conditions, c.Holds check s := by
      rw [List.findSome?_eq_none_iff]
      exact forall₂_congr fun c _ => (c.holds_fault? hs check).1
    rw [← hforall, ← hfirst]
    unfold submit
    cases s.accept check d <;> simp [complaint?]
  · intro front c back hsplit hfront hfails
    obtain ⟨hholds, htells⟩ := c.holds_fault? hs check
    obtain ⟨e, he⟩ := Option.ne_none_iff_exists'.mp (mt hholds.mp hfails)
    have hsome : d.conditions.findSome? (Condition.fault? check s) = some e :=
      List.findSome?_eq_some_iff.mpr ⟨front, c, back, hsplit, he, fun c' hc' =>
        (c'.holds_fault? hs check).1.mpr (hfront c' hc')⟩
    have haccept : s.accept check d = .error e := complaint?_eq_some_iff.mp (hfirst.trans hsome)
    rw [submit_of_error haccept]
    exact ⟨e, htells e he, rfl, rfl⟩

/-- An edge of the first process to a location that is not there, with an event that is not there. -/
def danglingEdge : Draft :=
  ⟨.edge ⟨"P", default⟩ ⟨"m", default⟩ ⟨"l", default⟩ ⟨"b", default⟩, {}, default⟩

/-- A loop at the location of the first process. -/
def loopDraft : Draft :=
  ⟨.edge ⟨"P", default⟩ ⟨"l", default⟩ ⟨"l", default⟩ ⟨"a", default⟩, {}, default⟩

/-- The conditions of the loop hold; of the other edge the target is told of, not the event. -/
theorem submit_decides_pairSample :
    (∀ c ∈ loopDraft.conditions, c.Holds .ignore pairSample) ∧
      ∃ e, e.code = .undeclaredLocation ∧
        (pairSample.submit .ignore .empty danglingEdge).report = Report.empty.append [e] := by
  have hreach : pairSample.Reachable := Reachable.empty.insertAll _
  have hnames : ∀ d ∈ pairSample.declarations, d.name? ≠ some "m" := by decide
  refine ⟨(submit_decides hreach .ignore .empty loopDraft).1.mp rfl, ?_⟩
  have hprocess : (Condition.process ⟨"P", default⟩).Holds .ignore pairSample := by
    refine ⟨⟨.process "P", {}, default⟩, ?_, rfl⟩
    decide
  have hlocation :
      ¬ (Condition.location ⟨"P", default⟩ ⟨"m", default⟩).Holds .ignore pairSample := by
    rintro ⟨p, -, d, hd, hkey⟩
    exact hnames d hd (congrArg (Option.map Prod.snd) hkey)
  obtain ⟨e, he, -, hreport⟩ := (submit_decides hreach .ignore .empty danglingEdge).2
    [.process ⟨"P", default⟩] (.location ⟨"P", default⟩ ⟨"m", default⟩) _ rfl
    (List.forall_mem_singleton.mpr hprocess) hlocation
  exact ⟨e, by rw [he], hreport⟩

end Store

end TimedNet
