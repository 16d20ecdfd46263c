/-
  TimedNet.Proofs.Spans

  Networks without the places of their parts in a text. Nothing that a network prints and no name
  that it looks up depends on them.
-/
import Mathlib.Data.List.Basic
import TimedNet.System
import TimedNet.Store.Insert

namespace TimedNet

-- ============================================================================
-- Declarations
-- ============================================================================

namespace Attribute

def withoutSpans (a : Attribute) : Attribute := { a with keySpan := default, valueSpan := default }

theorem withoutSpans_eq_iff {a b : Attribute} :
    a.withoutSpans = b.withoutSpans ↔ a.key = b.key ∧ a.value = b.value := by
  simp [withoutSpans]

end Attribute

namespace Attributes

def withoutSpans (as : Attributes) : Attributes := ⟨as.entries.map Attribute.withoutSpans⟩

@[simp] theorem text_withoutSpans (as : Attributes) : as.withoutSpans.text = as.text := by
  simp only [text, withoutSpans, List.map_map]
  rfl

end Attributes

def SyncConstraint.withoutSpan (c : SyncConstraint) : SyncConstraint := { c with span := default }

namespace Item

def withoutSpans : Item → Item
  | .sync constraints => .sync (constraints.map SyncConstraint.withoutSpan)
  | i => i

@[simp] theorem kind_withoutSpans (i : Item) : i.withoutSpans.kind = i.kind := by
  cases i <;> rfl

@[simp] theorem key?_withoutSpans (i : Item) : i.withoutSpans.key? = i.key? := by
  cases i <;> rfl

end Item

namespace Declaration

def withoutSpans (d : Declaration) : Declaration :=
  ⟨d.item.withoutSpans, d.attributes.withoutSpans, default⟩

@[simp] theorem kind_withoutSpans (d : Declaration) : d.withoutSpans.kind = d.kind :=
  d.item.kind_withoutSpans

@[simp] theorem key?_withoutSpans (d : Declaration) : d.withoutSpans.key? = d.key? :=
  d.item.key?_withoutSpans

@[simp] theorem name?_withoutSpans (d : Declaration) : d.withoutSpans.name? = d.name? := by
  simp [name?, Item.name?, withoutSpans]

end Declaration

-- ============================================================================
-- Stores
-- ============================================================================

namespace PerKind

variable {α β : Type}

/-- The table with a function applied to every value. -/
def map (f : α → β) (t : PerKind α) : PerKind β :=
  ⟨f t.clock, f t.int, f t.event, f t.process, f t.location, f t.edge, f t.sync⟩

@[simp] theorem get_map (f : α → β) (t : PerKind α) (k : Kind) : (t.map f).get k = f (t.get k) := by
  cases k <;> rfl

@[simp] theorem map_set (f : α → β) (t : PerKind α) (a : α) (k : Kind) :
    (t.set a k).map f = (t.map f).set (f a) k := by
  cases k <;> rfl

end PerKind

namespace Store

/-- The same declarations with the same ids, names and order. -/
def withoutSpans (s : Store) : Store :=
  { s with shelves := s.shelves.map (List.map Declaration.withoutSpans) }

variable (s : Store)

@[simp] theorem ofKind_withoutSpans (k : Kind) :
    s.withoutSpans.ofKind k = (s.ofKind k).map Declaration.withoutSpans := by
  simp [ofKind, withoutSpans]

@[simp] theorem get?_withoutSpans (id : DeclarationId) :
    s.withoutSpans.get? id = (s.get? id).map Declaration.withoutSpans := by
  simp [get?]

@[simp] theorem declarations_withoutSpans :
    s.withoutSpans.declarations = s.declarations.map Declaration.withoutSpans := by
  have horder : s.withoutSpans.order = s.order := rfl
  rw [declarations, declarations, horder, List.map_filterMap]
  exact List.filterMap_congr fun id _ => s.get?_withoutSpans id

@[simp] theorem nameOf_withoutSpans {k : Kind} (r : Ref k) :
    s.withoutSpans.nameOf r = s.nameOf r := by
  rw [nameOf, nameOf, get?_withoutSpans]
  cases s.get? r.id with
  | none => rfl
  | some d => simp

@[simp] theorem line_withoutSpans (d : Declaration) :
    s.withoutSpans.line d.withoutSpans = s.line d := by
  have hfields : s.withoutSpans.fields d.withoutSpans.item = s.fields d.item := by
    obtain ⟨item, attributes, span⟩ := d
    cases item <;>
      simp [fields, Declaration.withoutSpans, Item.withoutSpans, SyncConstraint.withoutSpan,
        Function.comp_def]
  have hattributes : d.withoutSpans.attributes.text = d.attributes.text :=
    d.attributes.text_withoutSpans
  rw [line, line, hfields, hattributes, d.kind_withoutSpans]

/-- Taking one more declaration. -/
theorem withoutSpans_push (d : Declaration) :
    (s.push d).withoutSpans = s.withoutSpans.push d.withoutSpans := by
  have hnext : s.withoutSpans.nextId d.withoutSpans.kind = s.nextId d.kind := by
    simp [nextId]
  have hnames : register s.names d.withoutSpans (s.nextId d.kind) =
      register s.names d (s.nextId d.kind) := by
    rw [register, register, d.key?_withoutSpans]
  have hnames' : s.withoutSpans.names = s.names := rfl
  have horder : s.withoutSpans.order = s.order := rfl
  rw [push, push, hnext, hnames', hnames, horder, d.kind_withoutSpans, s.ofKind_withoutSpans]
  simp [withoutSpans]

theorem names_eq_of_withoutSpans {s t : Store} (h : s.withoutSpans = t.withoutSpans) :
    s.names = t.names := by
  show s.withoutSpans.names = t.withoutSpans.names
  rw [h]

end Store

-- ============================================================================
-- Networks
-- ============================================================================

namespace System

/-- All that a network is made of but the places of its parts in a text. -/
def withoutSpans (n : System) : System :=
  ⟨n.name, n.attributes.withoutSpans, default, n.store.withoutSpans⟩

/-- No place shows in the printed form. -/
theorem text_withoutSpans (n : System) : n.withoutSpans.text = n.text := by
  have hheader : n.withoutSpans.headerLine = n.headerLine := by
    rw [headerLine, headerLine]
    exact congrArg _ n.attributes.text_withoutSpans
  have hlines : n.withoutSpans.store.declarations.map n.withoutSpans.store.line =
      n.store.declarations.map n.store.line := by
    show n.store.withoutSpans.declarations.map n.store.withoutSpans.line = _
    rw [Store.declarations_withoutSpans, List.map_map]
    exact List.map_congr_left fun d _ => n.store.line_withoutSpans d
  rw [text, text, hheader, hlines]

end System

end TimedNet
