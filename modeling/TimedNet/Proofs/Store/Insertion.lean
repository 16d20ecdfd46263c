/-
  TimedNet.Proofs.Store.Insertion

  What one insertion does. A declaration is held against a list of checks (`Item.checks`), each of
  which is a statement about the declarations that a store has. It is taken exactly if all checks
  hold, and then stands behind the others; otherwise the first check that fails tells the error and
  the store stays as it is (`insert_exact`).
-/
import TimedNet.Proofs.Store.Refinement

namespace TimedNet

-- ============================================================================
-- References and checks
-- ============================================================================

/-- What has to be the case for a declaration to be taken. -/
inductive Check where
  /-- A process is there. -/
  | process (process : ProcessRef)
  /-- An event is there. -/
  | event (event : EventRef)
  /-- A location is there, and it is one of a process. -/
  | location (process : ProcessRef) (location : LocationRef)
  /-- A name is free. -/
  | name (scope : Scope) (name : String)

namespace Item

/-- The declarations that an item refers to. -/
def references : Item → List DeclarationId
  | .location p _ => [p.id]
  | .edge p t o e => [p.id, t.id, o.id, e.id]
  | .sync constraints => constraints.flatMap fun c => [c.process.id, c.event.id]
  | _ => []

/-- The checks of an item, in the order in which they are made. -/
def checks : Item → List Check
  | .clock name _ => [.name .variables name]
  | .int name .. => [.name .variables name]
  | .event name => [.name .events name]
  | .process name => [.name .processes name]
  | .location p name => [.process p, .name (.locations p) name]
  | .edge p t o e => [.process p, .location p t, .location p o, .event e]
  | .sync constraints => constraints.flatMap fun c => [.process c.process, .event c.event]

end Item

namespace Store

/-- A location of a store that belongs to a process. -/
def Owns (s : Store) (p : ProcessRef) (l : LocationRef) : Prop :=
  ∃ name attributes span, s.get? l.id = some ⟨.location p name, attributes, span⟩

/-- No declaration of a store has a name in a namespace. -/
def IsFree (s : Store) (key : Scope × String) : Prop :=
  ∀ d ∈ s.declarations, d.key? ≠ some key

/-- Both ends of an edge are locations of its process. -/
def OwnsEnds (s : Store) : Item → Prop
  | .edge p target source _ => s.Owns p target ∧ s.Owns p source
  | _ => True

end Store

namespace Check

/-- What a check says about a store. -/
def Holds (s : Store) : Check → Prop
  | .process p => ∃ d, s.get? p.id = some d
  | .event e => ∃ d, s.get? e.id = some d
  | .location p l => s.Owns p l
  | .name scope text => s.IsFree (scope, text)

/-- The error that tells of a check that fails. A name that is taken comes with the kind of the
declaration that has it. -/
def Tells (s : Store) (e : StoreError) : Check → Prop
  | .process p => e = .unknownProcess p
  | .event r => e = .unknownEvent r
  | .location p l => e = .unknownLocation p l
  | .name scope text =>
    ∃ d ∈ s.declarations, d.key? = some (scope, text) ∧ e = .duplicate text d.kind

/-- The fault that a store finds with a check. -/
def fault? (s : Store) : Check → Option StoreError
  | .process p => s.processFault? p
  | .event e => s.eventFault? e
  | .location p l => s.locationFault? p l
  | .name scope text => (s.holder? scope text).map fun id => .duplicate text id.kind

end Check

-- ============================================================================
-- Reachable stores
-- ============================================================================

namespace Store

/-- The stores that insertions lead to from the empty one. -/
inductive Reachable : Store → Prop where
  | empty : Reachable .empty
  | insert {s s' : Store} {d : Declaration} {id : DeclarationId} :
    Reachable s → s.insert d = .ok (id, s') → Reachable s'

theorem Reachable.push {s : Store} (hs : s.Reachable) {d : Declaration}
    (h : s.fault? d.item = none) : (s.push d).Reachable :=
  .insert hs (insert_eq_ok_iff.mpr ⟨h, rfl, rfl⟩)

theorem Reachable.after {s : Store} (hs : s.Reachable) (d : Declaration) :
    (s.after d).Reachable := by
  unfold Store.after
  split
  · next hins => exact .insert hs hins
  · exact hs

/-- Insertions, accepted and refused ones mixed, lead to reachable stores. -/
theorem Reachable.insertAll {s : Store} (hs : s.Reachable) (ds : List Declaration) :
    (s.insertAll ds).Reachable := by
  induction ds generalizing s with
  | nil => exact hs
  | cons d ds ih => exact ih (hs.after d)

/-- A reachable store keeps the log of its declarations. -/
theorem Reachable.keeps {s : Store} (hs : s.Reachable) : s.Keeps s.declarations := by
  have hlog : ∃ log, s.Keeps log := by
    induction hs with
    | empty => exact ⟨[], keeps_empty⟩
    | insert _ hins ih =>
      obtain ⟨log, hlog⟩ := ih
      obtain ⟨hfault, -, rfl⟩ := insert_eq_ok_iff.mp hins
      exact ⟨_, keeps_push hlog fun key hkey => lookup_eq_none_of_fault hfault hkey⟩
  obtain ⟨log, hlog⟩ := hlog
  rwa [hlog.declarations_eq]

end Store

-- ============================================================================
-- The first check that fails
-- ============================================================================

namespace Store

variable {s : Store}

theorem isLocationOf_eq_true_iff {p : ProcessRef} {d : Declaration} :
    isLocationOf p d = true ↔
      ∃ name attributes span, d = ⟨.location p name, attributes, span⟩ := by
  obtain ⟨item, attributes, span⟩ := d
  cases item with
  | location q name => simp [isLocationOf]
  | _ => simp [isLocationOf]

theorem any_isLocationOf_iff {p : ProcessRef} {l : LocationRef} :
    (s.get? l.id).any (isLocationOf p) = true ↔ s.Owns p l := by
  rw [Option.any_eq_true_iff_get]
  constructor
  · rintro ⟨hsome, hloc⟩
    obtain ⟨name, as, span, hd⟩ := isLocationOf_eq_true_iff.mp hloc
    exact ⟨name, as, span, by rw [← hd, Option.some_get]⟩
  · rintro ⟨name, as, span, hget⟩
    simp [hget, isLocationOf]

/-- A name is held exactly if it is not free. -/
theorem Keeps.holder?_eq_none_iff (h : s.Keeps s.declarations) {scope : Scope} {name : String} :
    s.holder? scope name = none ↔ s.IsFree (scope, name) := by
  constructor
  · intro hnone d hd hkey
    obtain ⟨id, hid⟩ := Log.exists_mem_entries hd
    have hholder := h.holder?_eq_some_iff.mpr ⟨d, hid, hkey⟩
    rw [hnone] at hholder
    exact absurd hholder (by simp)
  · intro hfree
    rw [Option.eq_none_iff_forall_ne_some]
    intro id hid
    obtain ⟨d, hmem, hkey⟩ := h.holder?_eq_some_iff.mp hid
    exact hfree d (Log.snd_mem_of_mem_entries hmem) hkey

/-- A fault is found with a check exactly if it fails, and the fault tells of it. -/
theorem Keeps.check_fault (h : s.Keeps s.declarations) (c : Check) :
    (c.fault? s = none ↔ c.Holds s) ∧
      ∀ e, c.fault? s = some e ↔ ¬ c.Holds s ∧ c.Tells s e := by
  cases c with
  | process p =>
    simp only [Check.fault?, Check.Holds, Check.Tells, processFault?]
    cases s.get? p.id <;> simp [eq_comm]
  | event r =>
    simp only [Check.fault?, Check.Holds, Check.Tells, eventFault?]
    cases s.get? r.id <;> simp [eq_comm]
  | location p l =>
    simp only [Check.fault?, Check.Holds, Check.Tells, locationFault?]
    rw [← any_isLocationOf_iff]
    cases (s.get? l.id).any (isLocationOf p) <;> simp [eq_comm]
  | name scope name =>
    simp only [Check.fault?, Check.Holds, Check.Tells]
    refine ⟨Option.map_eq_none_iff.trans h.holder?_eq_none_iff, fun e => ?_⟩
    rw [Option.map_eq_some_iff, ← h.holder?_eq_none_iff]
    constructor
    · rintro ⟨id, hid, rfl⟩
      obtain ⟨d, hmem, hkey⟩ := h.holder?_eq_some_iff.mp hid
      refine ⟨by simp [hid], d, Log.snd_mem_of_mem_entries hmem, hkey, ?_⟩
      rw [kind_of_mem_entries hmem]
    · rintro ⟨-, d, hd, hkey, rfl⟩
      obtain ⟨id, hid⟩ := Log.exists_mem_entries hd
      exact ⟨id, h.holder?_eq_some_iff.mpr ⟨d, hid, hkey⟩, by rw [kind_of_mem_entries hid]⟩

/-- The fault of an item is that of the first of its checks that has one. -/
theorem fault?_eq_findSome? (s : Store) (i : Item) :
    s.fault? i = i.checks.findSome? (Check.fault? s) := by
  cases i with
  | sync constraints =>
    have hnone : s.nameFault? (.sync constraints) = none := rfl
    rw [fault?, hnone, Option.or_none]
    induction constraints with
    | nil => rfl
    | cons c constraints ih =>
      simp only [referenceFault?, Item.checks, List.flatMap_cons, List.cons_append,
        List.nil_append, List.findSome?_cons, Check.fault?] at ih ⊢
      rw [ih rfl]
      cases s.processFault? c.process <;> cases s.eventFault? c.event <;> rfl
  | edge p target source event =>
    simp only [fault?, referenceFault?, nameFault?, Item.key?, Item.checks, Check.fault?,
      List.findSome?_cons, List.findSome?_nil, Option.bind_none, Option.or_none]
    cases s.processFault? p <;> cases s.locationFault? p target <;>
      cases s.locationFault? p source <;> cases s.eventFault? event <;> rfl
  | location p name =>
    simp only [fault?, referenceFault?, nameFault?, Item.key?, Item.checks, Check.fault?,
      List.findSome?_cons, List.findSome?_nil, Option.bind_some]
    cases s.processFault? p <;> cases s.holder? (.locations p) name <;> rfl
  | _ =>
    -- a name of its own is all that is checked
    simp only [fault?, referenceFault?, nameFault?, Item.key?, Item.checks, Check.fault?,
      List.findSome?_singleton, Option.bind_some, Option.none_or]

theorem Keeps.fault?_eq_none_iff (h : s.Keeps s.declarations) {i : Item} :
    s.fault? i = none ↔ ∀ c ∈ i.checks, c.Holds s := by
  rw [fault?_eq_findSome?, List.findSome?_eq_none_iff]
  exact forall₂_congr fun c _ => (h.check_fault c).1

theorem Keeps.fault?_eq_some_iff (h : s.Keeps s.declarations) {i : Item} {e : StoreError} :
    s.fault? i = some e ↔ ∃ front c back, i.checks = front ++ c :: back ∧
      (∀ c' ∈ front, c'.Holds s) ∧ ¬ c.Holds s ∧ c.Tells s e := by
  rw [fault?_eq_findSome?, List.findSome?_eq_some_iff]
  constructor
  · rintro ⟨front, c, back, hsplit, hc, hfront⟩
    obtain ⟨hfails, htells⟩ := ((h.check_fault c).2 e).mp hc
    exact ⟨front, c, back, hsplit, fun c' hc' => (h.check_fault c').1.mp (hfront c' hc'), hfails,
      htells⟩
  · rintro ⟨front, c, back, hsplit, hfront, hfails, htells⟩
    exact ⟨front, c, back, hsplit, ((h.check_fault c).2 e).mpr ⟨hfails, htells⟩,
      fun c' hc' => (h.check_fault c').1.mpr (hfront c' hc')⟩

/-- All checks of an item hold exactly if its name is free, all that it refers to is there, and the
ends of an edge are locations of its process. -/
theorem checks_hold_iff (s : Store) (i : Item) :
    (∀ c ∈ i.checks, c.Holds s) ↔
      (∀ key, i.key? = some key → s.IsFree key) ∧
        (∀ id ∈ i.references, ∃ d, s.get? id = some d) ∧ s.OwnsEnds i := by
  cases i with
  | location p name =>
    simp [Item.checks, Item.references, Item.key?, OwnsEnds, Check.Holds, and_comm]
  | edge p target source event =>
    simp only [Item.checks, Item.references, Item.key?, OwnsEnds, List.forall_mem_cons,
      Check.Holds]
    constructor
    · rintro ⟨hp, ht, ho, he, -⟩
      obtain ⟨_, _, _, htarget⟩ := id ht
      obtain ⟨_, _, _, hsource⟩ := id ho
      exact ⟨by simp, ⟨hp, ⟨_, htarget⟩, ⟨_, hsource⟩, he, by simp⟩, ht, ho⟩
    · rintro ⟨-, ⟨hp, -, -, he, -⟩, ht, ho⟩
      exact ⟨hp, ht, ho, he, by simp⟩
  | sync constraints =>
    simp only [Item.checks, Item.references, Item.key?, OwnsEnds, List.mem_flatMap]
    constructor
    · intro hall
      refine ⟨by simp, ?_, trivial⟩
      rintro id ⟨c, hc, hid⟩
      rcases List.mem_pair.mp hid with rfl | rfl
      · exact hall (.process c.process) ⟨c, hc, by simp⟩
      · exact hall (.event c.event) ⟨c, hc, by simp⟩
    · rintro ⟨-, hall, -⟩ check ⟨c, hc, hcheck⟩
      rcases List.mem_pair.mp hcheck with rfl | rfl
      · exact hall c.process.id ⟨c, hc, by simp⟩
      · exact hall c.event.id ⟨c, hc, by simp⟩
  | _ => simp [Item.checks, Item.references, Item.key?, OwnsEnds, Check.Holds]

end Store

-- ============================================================================
-- What an insertion adds
-- ============================================================================

namespace Store

/-- A store `t` that is another one, `s`, with one more declaration: it stands behind the others,
its id is new and its name was free, and all other questions are answered as before. -/
structure Appends (s : Store) (d : Declaration) (id : DeclarationId) (t : Store) : Prop where
  id_eq : id = ⟨d.kind, (s.declarations.filter fun e => e.kind == d.kind).length⟩
  declarations : t.declarations = s.declarations ++ [d]
  size : t.size = s.size + 1
  order : t.order = s.order ++ [id]
  isNew : s.get? id = none
  get? : ∀ id', t.get? id' = if id' = id then some d else s.get? id'
  ofKind : ∀ k, t.ofKind k = if d.kind = k then s.ofKind k ++ [d] else s.ofKind k
  locationsOf : ∀ p, t.locationsOf p =
    if isLocationOf p d then s.locationsOf p ++ [d] else s.locationsOf p
  isFree : ∀ scope name, d.key? = some (scope, name) → s.holder? scope name = none
  holder? : ∀ scope name, t.holder? scope name =
    if d.key? = some (scope, name) then some id else s.holder? scope name
  find? : ∀ scope name, t.find? scope name =
    if d.key? = some (scope, name) then some d else s.find? scope name
  ref? : ∀ k scope name, d.key? ≠ some (scope, name) → t.ref? k scope name = s.ref? k scope name
  variableOf? : ∀ k name, d.key? ≠ some (.variables, name) →
    t.variableOf? k name = s.variableOf? k name

variable {s : Store} {d : Declaration}

theorem holder?_push (s : Store) (d : Declaration) (scope : Scope) (name : String) :
    (s.push d).holder? scope name =
      if d.key? = some (scope, name) then some (s.nextId d.kind) else s.holder? scope name :=
  lookup_register _ _ _ _

/-- The next id is not in use. -/
theorem get?_nextId (s : Store) (k : Kind) : s.get? (s.nextId k) = none :=
  List.getElem?_eq_none (Nat.le_refl _)

/-- Only the new id leads to the new declaration. -/
theorem get?_push (s : Store) (d : Declaration) (id : DeclarationId) :
    (s.push d).get? id = if id = s.nextId d.kind then some d else s.get? id := by
  rw [get?, get?, ofKind_push]
  obtain ⟨k, index⟩ := id
  by_cases hk : d.kind = k
  · subst hk
    by_cases hindex : index = (s.ofKind d.kind).length
    · simp [nextId, hindex]
    · simp only [nextId, hindex, DeclarationId.mk.injEq, true_and, if_true, if_false]
      rw [List.getElem?_append]
      split
      · rfl
      · have hlt : (s.ofKind d.kind).length < index := by omega
        rw [List.getElem?_eq_none (by simp; omega), List.getElem?_eq_none (by omega)]
  · simp [nextId, hk, Ne.symm hk]

/-- Every id that is held leads to a declaration before the next id. -/
theorem Keeps.ne_nextId_of_holder {log : List Declaration} (h : s.Keeps log) {scope : Scope}
    {name : String} {id : DeclarationId} (hid : s.holder? scope name = some id) (k : Kind) :
    id ≠ s.nextId k := by
  rintro rfl
  obtain ⟨e, hmem, -⟩ := h.holder?_eq_some_iff.mp hid
  have hget := h.get?_of_mem hmem
  rw [get?_nextId] at hget
  exact absurd hget (by simp)

theorem appends_push (h : s.Keeps s.declarations) (hfault : s.fault? d.item = none) :
    s.Appends d (s.nextId d.kind) (s.push d) := by
  have hfree : ∀ key, d.key? = some key → s.names.lookup key = none :=
    fun key hkey => lookup_eq_none_of_fault hfault hkey
  have hkeeps := keeps_push h hfree
  refine
    { id_eq := ?_
      declarations := hkeeps.declarations_eq
      size := by simp [size, push]
      order := rfl
      isNew := s.get?_nextId d.kind
      get? := s.get?_push d
      ofKind := s.ofKind_push d
      locationsOf := fun p => ?_
      isFree := fun scope name hkey => hfree _ hkey
      holder? := s.holder?_push d
      find? := fun scope name => ?_
      ref? := fun k scope name hkey => ?_
      variableOf? := fun k name hkey => ?_ }
  · rw [nextId, h.ofKind]
    rfl
  · rw [hkeeps.locationsOf_eq, h.locationsOf_eq, List.filter_append]
    cases hloc : isLocationOf p d <;> simp [hloc]
  · rw [Store.find?, Store.find?, s.holder?_push d]
    split
    · rw [Option.bind_some, s.get?_push d, if_pos rfl]
    · refine Option.bind_congr fun id hid => ?_
      rw [s.get?_push d, if_neg (h.ne_nextId_of_holder hid d.kind)]
  · rw [Store.ref?, Store.ref?, s.holder?_push d, if_neg hkey]
  · rw [Store.variableOf?, Store.variableOf?, s.holder?_push d, if_neg hkey]
    refine Option.bind_congr fun id hid => ?_
    rw [s.get?_push d, if_neg (h.ne_nextId_of_holder hid d.kind)]

/-- A store `t` that goes on where another one, `s`, ends: the declarations of `s` come first, in the
same order, and their ids lead to them as before. -/
structure GoesOn (s t : Store) : Prop where
  order : s.order <+: t.order
  declarations : s.declarations <+: t.declarations
  get? : ∀ id e, s.get? id = some e → t.get? id = some e

namespace GoesOn

variable {t u : Store}

theorem refl (s : Store) : s.GoesOn s :=
  ⟨List.prefix_refl _, List.prefix_refl _, fun _ _ => id⟩

theorem trans (h : s.GoesOn t) (h' : t.GoesOn u) : s.GoesOn u where
  order := h.order.trans h'.order
  declarations := h.declarations.trans h'.declarations
  get? id e he := h'.get? id e (h.get? id e he)

end GoesOn

theorem Appends.goesOn {t : Store} {id : DeclarationId} (h : s.Appends d id t) : s.GoesOn t where
  order := by
    rw [h.order]
    exact List.prefix_append _ _
  declarations := by
    rw [h.declarations]
    exact List.prefix_append _ _
  get? id' e he := by
    rw [h.get?, if_neg]
    · exact he
    · rintro rfl
      exact absurd (h.isNew.symm.trans he) (by simp)

theorem Reachable.goesOn_push (hs : s.Reachable) (hfault : s.fault? d.item = none) :
    s.GoesOn (s.push d) :=
  (appends_push hs.keeps hfault).goesOn

theorem Reachable.goesOn_after (hs : s.Reachable) (d : Declaration) : s.GoesOn (s.after d) := by
  unfold Store.after
  split
  · next hins =>
    obtain ⟨hfault, -, rfl⟩ := insert_eq_ok_iff.mp hins
    exact hs.goesOn_push hfault
  · exact .refl s

/-- A run of insertions goes on where the store ends. -/
theorem Reachable.goesOn_insertAll (hs : s.Reachable) (ds : List Declaration) :
    s.GoesOn (s.insertAll ds) := by
  induction ds generalizing s with
  | nil => exact .refl s
  | cons d ds ih => exact (hs.goesOn_after d).trans (ih (hs.after d))

/-- **One insertion.** A reachable store takes a declaration exactly if its name is free in its
namespace, all that it refers to is there, and the ends of an edge are locations of its process.
Then the store is the old one with the declaration behind the others. Otherwise the error tells of
the first check that fails, and the store stays as it is. -/
theorem insert_exact (hs : s.Reachable) (d : Declaration) :
    ((∃ id t, s.insert d = .ok (id, t)) ↔
      (∀ key, d.key? = some key → s.IsFree key) ∧
        (∀ id ∈ d.item.references, ∃ e, s.get? id = some e) ∧ s.OwnsEnds d.item) ∧
    (∀ id t, s.insert d = .ok (id, t) → s.after d = t ∧ s.Appends d id t) ∧
    (∀ e, s.insert d = .error e ↔ ∃ front c back, d.item.checks = front ++ c :: back ∧
      (∀ c' ∈ front, c'.Holds s) ∧ ¬ c.Holds s ∧ c.Tells s e) ∧
    ∀ e, s.insert d = .error e → s.after d = s := by
  have hkeeps := hs.keeps
  refine ⟨?_, fun id t hins => ?_, fun e => ?_, fun e hins => by simp [after, hins]⟩
  · have hok : (∃ id t, s.insert d = .ok (id, t)) ↔ s.fault? d.item = none := by
      simp [insert_eq_ok_iff]
    rw [hok, hkeeps.fault?_eq_none_iff, checks_hold_iff]
    rfl
  · obtain ⟨hfault, rfl, rfl⟩ := insert_eq_ok_iff.mp hins
    exact ⟨by simp [after, hins], appends_push hkeeps hfault⟩
  · rw [← hkeeps.fault?_eq_some_iff]
    unfold insert
    cases s.fault? d.item <;> simp

/-- Two processes with a location each, an event, and a clock. -/
def pairSample : Store :=
  empty.insertAll <|
    [.process "P", .process "Q", .event "a", .location ⟨0⟩ "l", .location ⟨1⟩ "l",
      .clock "x" 1].map fun i => ⟨i, {}, default⟩

/-- An edge of the first process to the location of the second. -/
def strayEdge : Declaration := ⟨.edge ⟨0⟩ ⟨0⟩ ⟨1⟩ ⟨7⟩, {}, default⟩

/-- A loop at the location of the first process. -/
def loopEdge : Declaration := ⟨.edge ⟨0⟩ ⟨0⟩ ⟨0⟩ ⟨0⟩, {}, default⟩

theorem insert_exact_pairSample :
    pairSample.Reachable ∧
      (∃ t, pairSample.insert loopEdge = .ok (⟨.edge, 0⟩, t) ∧ pairSample.after loopEdge = t ∧
        pairSample.Appends loopEdge ⟨.edge, 0⟩ t) ∧
      (∃ front c back, strayEdge.item.checks = front ++ c :: back ∧
        (∀ c' ∈ front, c'.Holds pairSample) ∧ ¬ c.Holds pairSample ∧
        c.Tells pairSample (.unknownLocation ⟨0⟩ ⟨1⟩)) ∧
      pairSample.after strayEdge = pairSample := by
  have hreach : pairSample.Reachable := Reachable.empty.insertAll _
  have hloop : pairSample.insert loopEdge = .ok (⟨.edge, 0⟩, pairSample.push loopEdge) := by rfl
  have hstray : pairSample.insert strayEdge = .error (.unknownLocation ⟨0⟩ ⟨1⟩) := by rfl
  obtain ⟨-, hok, -, -⟩ := insert_exact hreach loopEdge
  obtain ⟨-, -, herror, hsame⟩ := insert_exact hreach strayEdge
  exact ⟨hreach, ⟨_, hloop, hok _ _ hloop⟩, (herror _).mp hstray, hsame _ hstray⟩

end Store

end TimedNet
