/-
  TimedNet.Proofs.Session.Meaning

  What phrases declare. `Denotes s φ i` says that a phrase stands for an item under the names of a
  store. A phrase whose parts have no fault is accepted exactly if it denotes an item that makes
  sense and that the store has no fault to find with (`accept_eq_ok_iff`).
-/
import TimedNet.Proofs.Session.Semantic
import TimedNet.Proofs.Grammar.Content
import TimedNet.Proofs.Store.Refinement

namespace TimedNet

-- ============================================================================
-- Checks that pass
-- ============================================================================

theorem mapError_eq_ok_iff {ε α : Type} {x : Except ε α} {f : ε → Diagnostic} {a : α} :
    x.mapError f = .ok a ↔ x = .ok a := by
  cases x <;> simp [Except.mapError]

theorem mapError_eq_error_iff {ε α : Type} {x : Except ε α} {f : ε → Diagnostic} {d : Diagnostic} :
    x.mapError f = .error d ↔ ∃ e, x = .error e ∧ f e = d := by
  cases x <;> simp [Except.mapError]

theorem toOption_eq_some_iff {ε α : Type} {x : Except ε α} {a : α} :
    x.toOption = some a ↔ x = .ok a := by
  cases x <;> simp [Except.toOption]

theorem complaint?_eq_some_iff {α : Type} {x : Except Diagnostic α} {d : Diagnostic} :
    complaint? x = some d ↔ x = .error d := by
  cases x <;> simp [complaint?]

theorem complaint?_eq_none_iff {α : Type} {x : Except Diagnostic α} :
    complaint? x = none ↔ ∃ a, x = .ok a := by
  cases x <;> simp [complaint?]

namespace Lexeme

theorem size_eq_ok_iff {l : Lexeme} {n : UInt32} :
    l.size = .ok n ↔ Numeral.unsigned l.text = .ok n := mapError_eq_ok_iff

theorem bound_eq_ok_iff {l : Lexeme} {n : Int32} :
    l.bound = .ok n ↔ Numeral.signed l.text = .ok n := mapError_eq_ok_iff

theorem value_sizeNumber {l : Lexeme} {n : UInt32} (h : Numeral.unsigned l.text = .ok n) :
    l.sizeNumber.value = some n := by
  rw [sizeNumber, size_eq_ok_iff.mpr h]
  rfl

theorem value_boundNumber {l : Lexeme} {n : Int32} (h : Numeral.signed l.text = .ok n) :
    l.boundNumber.value = some n := by
  rw [boundNumber, bound_eq_ok_iff.mpr h]
  rfl

end Lexeme

theorem Number.checkSize_eq_ok_iff {size : Number UInt32} {kind : Kind} {name : Lexeme} {u : Unit} :
    size.checkSize kind name = .ok u ↔ size.value ≠ some 0 := by
  unfold checkSize
  split <;> simp_all

namespace Store

variable {s : Store}

theorem findProcess_eq_ok_iff {l : Lexeme} {r : ProcessRef} :
    s.findProcess l = .ok r ↔ s.process? l.text = some r := by
  unfold findProcess
  split <;> simp_all

theorem findEvent_eq_ok_iff {l : Lexeme} {r : EventRef} :
    s.findEvent l = .ok r ↔ s.event? l.text = some r := by
  unfold findEvent
  split <;> simp_all

theorem findLocation_eq_ok_iff {p : ProcessRef} {owner l : Lexeme} {r : LocationRef} :
    s.findLocation p owner l = .ok r ↔ s.location? p l.text = some r := by
  unfold findLocation
  split <;> simp_all

theorem findEnds_eq_ok_iff {owner label : Lexeme} {ends : ProcessRef × EventRef} :
    s.findEnds owner label = .ok ends ↔
      s.process? owner.text = some ends.1 ∧ s.event? label.text = some ends.2 := by
  rw [findEnds, bind_eq_ok_iff]
  constructor
  · rintro ⟨p, hp, h⟩
    obtain ⟨e, he, h⟩ := bind_eq_ok_iff.mp h
    obtain rfl := pure_eq_ok_iff.mp h
    exact ⟨findProcess_eq_ok_iff.mp hp, findEvent_eq_ok_iff.mp he⟩
  · rintro ⟨hp, he⟩
    refine ⟨ends.1, findProcess_eq_ok_iff.mpr hp, bind_eq_ok_iff.mpr ?_⟩
    exact ⟨ends.2, findEvent_eq_ok_iff.mpr he, rfl⟩

theorem checkFree_eq_ok_iff {scope : Scope} {name : Lexeme} {problem : Kind → Problem} {u : Unit} :
    s.checkFree scope name problem = .ok u ↔ s.holder? scope name.text = none := by
  unfold checkFree
  split <;> simp_all

end Store

-- ============================================================================
-- Meaning
-- ============================================================================

/-- The constraint that a link stands for. -/
structure Link.Denotes (s : Store) (l : Link) (c : SyncConstraint) : Prop where
  process : s.process? l.process.text = some c.process
  event : s.event? l.event.text = some c.event
  strength : c.strength = l.strength
  span : c.span = l.span

/-- The item that a phrase stands for. -/
inductive Phrase.Denotes (s : Store) : Phrase → Item → Prop
  | clock {size name : Lexeme} {n : UInt32} (hsize : Numeral.unsigned size.text = .ok n) :
    Denotes s (.clock size name) (.clock name.text n)
  | int {size min max initial name : Lexeme} {n : UInt32} {lo hi v : Int32}
    (hsize : Numeral.unsigned size.text = .ok n) (hmin : Numeral.signed min.text = .ok lo)
    (hmax : Numeral.signed max.text = .ok hi) (hinitial : Numeral.signed initial.text = .ok v) :
    Denotes s (.int size min max initial name) (.int name.text n lo hi v)
  | event (name : Lexeme) : Denotes s (.event name) (.event name.text)
  | process (name : Lexeme) : Denotes s (.process name) (.process name.text)
  | location {owner name : Lexeme} {p : ProcessRef} (howner : s.process? owner.text = some p) :
    Denotes s (.location owner name) (.location p name.text)
  | edge {owner target source label : Lexeme} {p : ProcessRef} {t o : LocationRef} {e : EventRef}
    (howner : s.process? owner.text = some p) (htarget : s.location? p target.text = some t)
    (hsource : s.location? p source.text = some o) (hlabel : s.event? label.text = some e) :
    Denotes s (.edge owner target source label) (.edge p t o e)
  | sync {links : List Link} {constraints : List SyncConstraint}
    (hlinks : List.Forall₂ (Link.Denotes s) links constraints) :
    Denotes s (.sync links) (.sync constraints)

namespace Item

/-- Variables are not of size 0. -/
def IsSized : Item → Prop
  | .clock _ size => size ≠ 0
  | .int _ size _ _ _ => size ≠ 0
  | _ => True

/-- The initial value of an integer variable lies within its bounds. -/
def IsInBounds : Item → Prop
  | .int _ _ min max initial => InBounds min max initial
  | _ => True

end Item

namespace Link

variable {s : Store} {l : Link}

theorem constraint_eq_ok_iff {c : SyncConstraint} :
    l.constraint s = .ok c ↔ l.Denotes s c := by
  constructor
  · intro h
    unfold constraint at h
    cases hends : s.findEnds l.process l.event with
    | error d => simp [hends, Except.map] at h
    | ok ends =>
      obtain ⟨hp, he⟩ := Store.findEnds_eq_ok_iff.mp hends
      simp only [hends, Except.map, Except.ok.injEq] at h
      subst h
      exact ⟨hp, he, rfl, rfl⟩
  · rintro ⟨hp, he, hstrength, hspan⟩
    have hends : s.findEnds l.process l.event = .ok (c.process, c.event) :=
      Store.findEnds_eq_ok_iff.mpr ⟨hp, he⟩
    obtain ⟨p, e, strength, span⟩ := c
    simp_all [constraint, Except.map]

theorem fault?_part_eq_none_iff : l.part.fault? s = none ↔ ∃ c, l.Denotes s c := by
  rw [part, Part.fault?, complaint?_eq_none_iff]
  constructor
  · rintro ⟨ends, hends⟩
    obtain ⟨hp, he⟩ := Store.findEnds_eq_ok_iff.mp hends
    exact ⟨⟨ends.1, ends.2, l.strength, l.span⟩, hp, he, rfl, rfl⟩
  · rintro ⟨c, hc⟩
    exact ⟨(c.process, c.event), Store.findEnds_eq_ok_iff.mpr ⟨hc.process, hc.event⟩⟩

end Link

-- ============================================================================
-- Acceptance
-- ============================================================================

namespace Phrase

variable {s : Store}

/-- The links of a synchronization without a fault stand for its constraints. -/
theorem forall₂_denotes {links : List Link} (h : ∀ l ∈ links, l.part.fault? s = none) :
    List.Forall₂ (Link.Denotes s) links (links.filterMap fun l => (l.constraint s).toOption) := by
  induction links with
  | nil => exact .nil
  | cons l links ih =>
    obtain ⟨c, hc⟩ := Link.fault?_part_eq_none_iff.mp (h l List.mem_cons_self)
    rw [List.filterMap_cons_some (b := c) (by rw [Link.constraint_eq_ok_iff.mpr hc]; rfl)]
    exact .cons hc (ih fun l' hl' => h l' (List.mem_cons_of_mem l hl'))

theorem filterMap_constraint {links : List Link} {constraints : List SyncConstraint}
    (h : List.Forall₂ (Link.Denotes s) links constraints) :
    links.filterMap (fun l => (l.constraint s).toOption) = constraints := by
  induction h with
  | nil => rfl
  | cons hc _ ih =>
    rw [List.filterMap_cons_some (by rw [Link.constraint_eq_ok_iff.mpr hc]; rfl), ih]

theorem fault?_eq_none_of_forall₂ {links : List Link} {constraints : List SyncConstraint}
    (h : List.Forall₂ (Link.Denotes s) links constraints) :
    ∀ l ∈ links, l.part.fault? s = none := by
  induction h with
  | nil => simp
  | cons hc _ ih =>
    refine List.forall_mem_cons.mpr ⟨?_, ih⟩
    exact Link.fault?_part_eq_none_iff.mpr ⟨_, hc⟩

/-- No part of a phrase that stands for an item has a fault. -/
theorem Denotes.fault?_eq_none {φ : Phrase} {i : Item} (h : φ.Denotes s i) :
    ∀ part ∈ φ.parts, part.fault? s = none := by
  have hsizeFault : ∀ {l n}, Numeral.unsigned l.text = .ok n → (Part.size l).fault? s = none :=
    fun hn => complaint?_eq_none_iff.mpr ⟨_, Lexeme.size_eq_ok_iff.mpr hn⟩
  have hboundFault : ∀ {l n}, Numeral.signed l.text = .ok n → (Part.bound l).fault? s = none :=
    fun hn => complaint?_eq_none_iff.mpr ⟨_, Lexeme.bound_eq_ok_iff.mpr hn⟩
  cases h with
  | clock hsize => simpa [parts] using hsizeFault hsize
  | int hsize hmin hmax hinitial =>
    simpa [parts] using
      ⟨hsizeFault hsize, hboundFault hmin, hboundFault hmax, hboundFault hinitial⟩
  | @sync links constraints hlinks =>
    intro part hpart
    obtain ⟨l, hl, rfl⟩ := List.mem_map.mp hpart
    exact fault?_eq_none_of_forall₂ hlinks l hl
  | _ => simp [parts]

end Phrase

namespace Store

variable {s : Store} {φ : Phrase} {i : Item}

/-- The number that a numeral without a fault stands for. -/
theorem exists_unsigned {l : Lexeme} (h : (Part.size l).fault? s = none) :
    ∃ n, Numeral.unsigned l.text = .ok n := by
  obtain ⟨n, hn⟩ := complaint?_eq_none_iff.mp h
  exact ⟨n, Lexeme.size_eq_ok_iff.mp hn⟩

theorem exists_signed {l : Lexeme} (h : (Part.bound l).fault? s = none) :
    ∃ n, Numeral.signed l.text = .ok n := by
  obtain ⟨n, hn⟩ := complaint?_eq_none_iff.mp h
  exact ⟨n, Lexeme.bound_eq_ok_iff.mp hn⟩

/-- A phrase without faulty parts that is resolved denotes what it is resolved to. -/
theorem denotes_of_resolve (hparts : ∀ part ∈ φ.parts, part.fault? s = none)
    (h : s.resolve (φ.draft s) = .ok i) : φ.Denotes s i ∧ i.IsSized := by
  cases φ with
  | clock size name =>
    obtain ⟨n, hn⟩ := exists_unsigned (hparts (.size size) (by simp [Phrase.parts]))
    obtain ⟨-, -, h⟩ := bind_eq_ok_iff.mp h
    obtain ⟨_, hsize, h⟩ := bind_eq_ok_iff.mp h
    have hne := Number.checkSize_eq_ok_iff.mp hsize
    obtain rfl := pure_eq_ok_iff.mp h
    rw [Lexeme.value_sizeNumber hn] at hne ⊢
    exact ⟨.clock hn, fun h0 => hne (congrArg some h0)⟩
  | int size min max initial name =>
    obtain ⟨n, hn⟩ := exists_unsigned (hparts (.size size) (by simp [Phrase.parts]))
    obtain ⟨lo, hlo⟩ := exists_signed (hparts (.bound min) (by simp [Phrase.parts]))
    obtain ⟨hi, hhi⟩ := exists_signed (hparts (.bound max) (by simp [Phrase.parts]))
    obtain ⟨v, hv⟩ := exists_signed (hparts (.bound initial) (by simp [Phrase.parts]))
    obtain ⟨-, -, h⟩ := bind_eq_ok_iff.mp h
    obtain ⟨_, hsize, h⟩ := bind_eq_ok_iff.mp h
    have hne := Number.checkSize_eq_ok_iff.mp hsize
    obtain rfl := pure_eq_ok_iff.mp h
    rw [Lexeme.value_sizeNumber hn] at hne
    rw [Lexeme.value_sizeNumber hn, Lexeme.value_boundNumber hlo, Lexeme.value_boundNumber hhi,
      Lexeme.value_boundNumber hv]
    exact ⟨.int hn hlo hhi hv, fun h0 => hne (congrArg some h0)⟩
  | event name =>
    obtain ⟨-, -, h⟩ := bind_eq_ok_iff.mp h
    obtain rfl := pure_eq_ok_iff.mp h
    exact ⟨.event name, trivial⟩
  | process name =>
    obtain ⟨-, -, h⟩ := bind_eq_ok_iff.mp h
    obtain rfl := pure_eq_ok_iff.mp h
    exact ⟨.process name, trivial⟩
  | location owner name =>
    obtain ⟨p, hp, h⟩ := bind_eq_ok_iff.mp h
    obtain ⟨-, -, h⟩ := bind_eq_ok_iff.mp h
    obtain rfl := pure_eq_ok_iff.mp h
    exact ⟨.location (findProcess_eq_ok_iff.mp hp), trivial⟩
  | edge owner target source label =>
    obtain ⟨p, hp, h⟩ := bind_eq_ok_iff.mp h
    obtain ⟨t, ht, h⟩ := bind_eq_ok_iff.mp h
    obtain ⟨o, ho, h⟩ := bind_eq_ok_iff.mp h
    obtain ⟨e, he, h⟩ := bind_eq_ok_iff.mp h
    obtain rfl := pure_eq_ok_iff.mp h
    exact ⟨.edge (findProcess_eq_ok_iff.mp hp) (findLocation_eq_ok_iff.mp ht)
      (findLocation_eq_ok_iff.mp ho) (findEvent_eq_ok_iff.mp he), trivial⟩
  | sync links =>
    obtain rfl := pure_eq_ok_iff.mp h
    refine ⟨.sync (Phrase.forall₂_denotes fun l hl => hparts l.part ?_), trivial⟩
    exact List.mem_map_of_mem hl

/-- A phrase is resolved to what it denotes, if the name of it is free. -/
theorem resolve_of_denotes (h : φ.Denotes s i) (hsized : i.IsSized)
    (hfree : ∀ key, i.key? = some key → s.names.lookup key = none) :
    s.resolve (φ.draft s) = .ok i := by
  have hpass : ∀ {scope : Scope} {name : Lexeme} (problem : Kind → Problem),
      i.key? = some (scope, name.text) → s.checkFree scope name problem = .ok () :=
    fun _ hkey => checkFree_eq_ok_iff.mpr (hfree _ hkey)
  cases h with
  | clock hn =>
    refine bind_eq_ok_iff.mpr ⟨(), hpass _ rfl, bind_eq_ok_iff.mpr ⟨(), ?_, ?_⟩⟩
    · rw [Number.checkSize_eq_ok_iff, Lexeme.value_sizeNumber hn]
      intro h0
      exact hsized (Option.some.inj h0)
    · rw [Lexeme.value_sizeNumber hn]
      rfl
  | int hn hlo hhi hv =>
    refine bind_eq_ok_iff.mpr ⟨(), hpass _ rfl, bind_eq_ok_iff.mpr ⟨(), ?_, ?_⟩⟩
    · rw [Number.checkSize_eq_ok_iff, Lexeme.value_sizeNumber hn]
      intro h0
      exact hsized (Option.some.inj h0)
    · rw [Lexeme.value_sizeNumber hn, Lexeme.value_boundNumber hlo, Lexeme.value_boundNumber hhi,
        Lexeme.value_boundNumber hv]
      rfl
  | event name => exact bind_eq_ok_iff.mpr ⟨(), hpass _ rfl, rfl⟩
  | process name => exact bind_eq_ok_iff.mpr ⟨(), hpass _ rfl, rfl⟩
  | location hp =>
    refine bind_eq_ok_iff.mpr ⟨_, findProcess_eq_ok_iff.mpr hp, ?_⟩
    exact bind_eq_ok_iff.mpr ⟨(), hpass _ rfl, rfl⟩
  | edge hp ht ho he =>
    refine bind_eq_ok_iff.mpr ⟨_, findProcess_eq_ok_iff.mpr hp, ?_⟩
    refine bind_eq_ok_iff.mpr ⟨_, findLocation_eq_ok_iff.mpr ht, ?_⟩
    refine bind_eq_ok_iff.mpr ⟨_, findLocation_eq_ok_iff.mpr ho, ?_⟩
    exact bind_eq_ok_iff.mpr ⟨_, findEvent_eq_ok_iff.mpr he, rfl⟩
  | sync hlinks =>
    rw [Phrase.draft, Phrase.filterMap_constraint hlinks]
    rfl

/-- The bounds of a draft are those of the item that its phrase denotes. -/
theorem checkBounds_eq_ok_iff (h : φ.Denotes s i) (check : BoundsCheck) :
    (∃ w, (φ.draft s).checkBounds check = .ok w) ↔ (check = .error → i.IsInBounds) := by
  have hproblem : (φ.draft s).boundsProblem? = none ↔ i.IsInBounds := by
    cases h with
    | int hn hlo hhi hv =>
      simp only [Phrase.draft, DraftItem.boundsProblem?, Lexeme.value_boundNumber hlo,
        Lexeme.value_boundNumber hhi, Lexeme.value_boundNumber hv, Item.IsInBounds]
      split <;> simp_all
    | _ => simp [Phrase.draft, DraftItem.boundsProblem?, Item.IsInBounds]
  rw [← hproblem]
  unfold DraftItem.checkBounds
  cases check <;> cases (φ.draft s).boundsProblem? <;> simp

/-- **Acceptance.** A phrase without faulty parts is accepted exactly if it denotes an item of
which the size and, where they are checked, the bounds make sense, and the store finds no fault
with it. -/
theorem accept_eq_ok_iff (hparts : ∀ part ∈ φ.parts, part.fault? s = none) (check : BoundsCheck)
    (as : Attributes) (span : Span) (t : Store) :
    (∃ a, s.accept check ⟨φ.draft s, as, span⟩ = .ok a ∧ a.store = t) ↔
      ∃ i, φ.Denotes s i ∧ i.IsSized ∧ (check = .error → i.IsInBounds) ∧ s.fault? i = none ∧
        t = s.push ⟨i, as, span⟩ := by
  constructor
  · rintro ⟨a, h, rfl⟩
    obtain ⟨i, hi, h⟩ := bind_eq_ok_iff.mp h
    obtain ⟨w, hw, h⟩ := bind_eq_ok_iff.mp h
    obtain ⟨hdenotes, hsized⟩ := denotes_of_resolve hparts hi
    split at h
    · next id t hins =>
      obtain ⟨hfault, -, rfl⟩ := insert_eq_ok_iff.mp hins
      obtain rfl := pure_eq_ok_iff.mp h
      exact ⟨i, hdenotes, hsized, (checkBounds_eq_ok_iff hdenotes check).mp ⟨w, hw⟩, hfault, rfl⟩
    · exact absurd h (by simp)
  · rintro ⟨i, hdenotes, hsized, hbounds, hfault, rfl⟩
    obtain ⟨w, hw⟩ := (checkBounds_eq_ok_iff hdenotes check).mpr hbounds
    have hfree : ∀ key, i.key? = some key → s.names.lookup key = none := fun key hkey =>
      lookup_eq_none_of_fault (d := ⟨i, as, span⟩) hfault hkey
    have hins : s.insert ⟨i, as, span⟩ = .ok (s.nextId i.kind, s.push ⟨i, as, span⟩) :=
      insert_eq_ok_iff.mpr ⟨hfault, rfl, rfl⟩
    refine ⟨⟨s.nextId i.kind, s.push ⟨i, as, span⟩, w⟩, ?_, rfl⟩
    refine bind_eq_ok_iff.mpr ⟨i, resolve_of_denotes hdenotes hsized hfree, ?_⟩
    refine bind_eq_ok_iff.mpr ⟨w, hw, ?_⟩
    rw [hins]
    rfl

end Store

end TimedNet
