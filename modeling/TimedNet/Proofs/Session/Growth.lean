/-
  TimedNet.Proofs.Session.Growth

  Stores that grow by declarations that make sense. `Grows check s ds t` says that the store `t`
  comes from `s` by taking `ds`, each of which a phrase denotes when it is taken. A name, once
  taken, stays with its holder, so what a phrase denotes it denotes in all later stores too; and
  the names that a store gives back for its references are those that they were found by.
-/
import TimedNet.Proofs.Spans
import TimedNet.Proofs.Session.Meaning

namespace TimedNet

-- ============================================================================
-- Names that stay
-- ============================================================================

namespace Store

/-- Names that are taken in a store are taken by the same declarations in another. -/
def Extends (s t : Store) : Prop :=
  ∀ scope name id, s.holder? scope name = some id → t.holder? scope name = some id

namespace Extends

variable {s t u : Store}

theorem refl (s : Store) : s.Extends s := fun _ _ _ h => h

theorem trans (h : s.Extends t) (h' : t.Extends u) : s.Extends u :=
  fun scope name id hid => h' scope name id (h scope name id hid)

theorem ref? (h : s.Extends t) {k : Kind} {scope : Scope} {name : String} {r : Ref k}
    (hr : s.ref? k scope name = some r) : t.ref? k scope name = some r := by
  obtain ⟨id, hid, hr⟩ := Option.bind_eq_some_iff.mp hr
  exact Option.bind_eq_some_iff.mpr ⟨id, h scope name id hid, hr⟩

end Extends

/-- A store that takes one more declaration keeps all names. -/
theorem extends_push {s : Store} {d : Declaration} (h : s.fault? d.item = none) :
    s.Extends (s.push d) := by
  intro scope name id hid
  have hnames : (s.push d).names = register s.names d (s.nextId d.kind) := rfl
  rw [holder?, hnames, lookup_register, if_neg]
  · exact hid
  · intro hkey
    have hfree := lookup_eq_none_of_fault h hkey
    rw [holder?, hfree] at hid
    exact absurd hid (by simp)

theorem extends_of_names_eq {s t : Store} (h : s.names = t.names) : s.Extends t := by
  intro scope name id hid
  rwa [holder?, ← h]

end Store

theorem Link.Denotes.mono {s t : Store} (h : s.Extends t) {l : Link} {c : SyncConstraint}
    (hc : l.Denotes s c) : l.Denotes t c :=
  { hc with process := h.ref? hc.process, event := h.ref? hc.event }

/-- What a phrase denotes it denotes in every store with the same names and more. -/
theorem Phrase.Denotes.mono {s t : Store} (h : s.Extends t) {φ : Phrase} {i : Item}
    (hφ : φ.Denotes s i) : φ.Denotes t i := by
  cases hφ with
  | clock hsize => exact .clock hsize
  | int hsize hmin hmax hinitial => exact .int hsize hmin hmax hinitial
  | event name => exact .event name
  | process name => exact .process name
  | location howner => exact .location (h.ref? howner)
  | edge howner htarget hsource hlabel =>
    exact .edge (h.ref? howner) (h.ref? htarget) (h.ref? hsource) (h.ref? hlabel)
  | sync hlinks => exact .sync (hlinks.imp fun _ _ => Link.Denotes.mono h)

/-- A reference shows as the name that it was found by. -/
theorem Store.Keeps.nameOf_eq {s : Store} {log : List Declaration} (h : s.Keeps log) {k : Kind}
    {scope : Scope} (hscope : scope.kinds = [k]) {name : String} {r : Ref k}
    (hr : s.ref? k scope name = some r) : s.nameOf r = name := by
  obtain ⟨d, hmem, hkey⟩ := (h.ref?_eq_some_iff hscope).mp hr
  have hname : d.name? = some name := by
    have hitem : d.item.key? = some (scope, name) := hkey
    rw [Declaration.name?, Item.name?, hitem]
    rfl
  rw [Store.nameOf, h.get?_of_mem hmem, Option.bind_some, hname]
  rfl

-- ============================================================================
-- Growth
-- ============================================================================

/-- A declaration that can be taken, and for which there is a phrase. -/
structure Declarable (check : BoundsCheck) (s : Store) (d : Declaration) : Prop where
  phrase : ∃ φ : Phrase, φ.HasNames ∧ φ.Denotes s d.item
  isSized : d.item.IsSized
  isInBounds : check = .error → d.item.IsInBounds
  fault : s.fault? d.item = none
  attributes : ∀ a ∈ d.attributes.entries, a.IsPrintable

/-- Taking declarations, one after the other. -/
inductive Grows (check : BoundsCheck) : Store → List Declaration → Store → Prop where
  | nil (s : Store) : Grows check s [] s
  | cons {s t : Store} {d : Declaration} {ds : List Declaration} :
    Declarable check s d → Grows check (s.push d) ds t → Grows check s (d :: ds) t

namespace Grows

variable {check : BoundsCheck} {s t : Store} {ds : List Declaration}

theorem extend (h : Grows check s ds t) : s.Extends t := by
  induction h with
  | nil s => exact .refl s
  | cons hd _ ih => exact (Store.extends_push hd.fault).trans ih

theorem keeps (h : Grows check s ds t) {log : List Declaration} (hs : s.Keeps log) :
    t.Keeps (log ++ ds) := by
  induction h generalizing log with
  | nil s => rwa [List.append_nil]
  | @cons s t d ds hd _ ih =>
    rw [List.append_cons]
    exact ih (Store.keeps_push hs fun key hkey => Store.lookup_eq_none_of_fault hd.fault hkey)

end Grows

-- ============================================================================
-- Growth without places
-- ============================================================================

namespace Item

@[simp] theorem isSized_withoutSpans (i : Item) : i.withoutSpans.IsSized ↔ i.IsSized := by
  cases i <;> rfl

@[simp] theorem isInBounds_withoutSpans (i : Item) : i.withoutSpans.IsInBounds ↔ i.IsInBounds := by
  cases i <;> rfl

end Item

namespace Store

variable (s : Store)

@[simp] theorem isLocationOf_withoutSpans (p : ProcessRef) (d : Declaration) :
    isLocationOf p d.withoutSpans = isLocationOf p d := by
  obtain ⟨item, attributes, span⟩ := d
  cases item <;> rfl

/-- Whether a store has a fault to find with a declaration does not depend on places. -/
theorem fault?_withoutSpans (i : Item) : s.withoutSpans.fault? i.withoutSpans = s.fault? i := by
  have hprocess : ∀ p, s.withoutSpans.processFault? p = s.processFault? p := by
    intro p
    simp [processFault?]
  have hevent : ∀ e, s.withoutSpans.eventFault? e = s.eventFault? e := by
    intro e
    simp [eventFault?]
  have hlocation : ∀ p l, s.withoutSpans.locationFault? p l = s.locationFault? p l := by
    intro p l
    rw [locationFault?, locationFault?, s.get?_withoutSpans]
    cases s.get? l.id with
    | none => rfl
    | some d => simp
  have hname : s.withoutSpans.nameFault? i.withoutSpans = s.nameFault? i := by
    rw [nameFault?, nameFault?, i.key?_withoutSpans]
    rfl
  have hreference : s.withoutSpans.referenceFault? i.withoutSpans = s.referenceFault? i := by
    cases i <;>
      simp [referenceFault?, Item.withoutSpans, hprocess, hevent, hlocation, List.findSome?_map,
        Function.comp_def, SyncConstraint.withoutSpan]
  rw [fault?, fault?, hname, hreference]

end Store

end TimedNet
