/-
  TimedNet.Proofs.Session.Corresponds

  Sessions over the same words at other places. Declarations, stores, networks and diagnostics
  correspond if they are the same but for their spans, and those are related by `σ`. Stores that
  correspond answer every check alike, so lines of corresponding words leave such stores behind and
  have diagnostics that correspond (`Corresponds.enter`), and sessions over them go in lockstep.
-/
import TimedNet.Proofs.Grammar.Corresponds
import TimedNet.Proofs.Session.Lockstep
import TimedNet.Proofs.Store.Log

namespace TimedNet

-- ============================================================================
-- Declarations, stores and diagnostics
-- ============================================================================

section Relations

variable (σ : Span → Span → Prop)

structure Related.Corresponds (r q : Related) : Prop where
  message : r.message = q.message
  span : σ r.span q.span

structure Diagnostic.Corresponds (d e : Diagnostic) : Prop where
  code : d.code = e.code
  span : σ d.span e.span
  message : d.message = e.message
  severity : d.severity = e.severity
  hint : d.hint = e.hint
  related : List.Forall₂ (Related.Corresponds σ) d.related e.related

structure SyncConstraint.Corresponds (c d : SyncConstraint) : Prop where
  process : c.process = d.process
  event : c.event = d.event
  strength : c.strength = d.strength
  span : σ c.span d.span

/-- Only synchronizations have spans in them. -/
inductive Item.Corresponds : Item → Item → Prop
  | same {i : Item} : i.kind ≠ .sync → Corresponds i i
  | sync {cs ds : List SyncConstraint} : List.Forall₂ (SyncConstraint.Corresponds σ) cs ds →
    Corresponds (.sync cs) (.sync ds)

structure Declaration.Corresponds (d e : Declaration) : Prop where
  item : d.item.Corresponds σ e.item
  attributes : d.attributes.Corresponds σ e.attributes
  span : σ d.span e.span

structure Store.Corresponds (s t : Store) : Prop where
  ofKind : ∀ k, List.Forall₂ (Declaration.Corresponds σ) (s.ofKind k) (t.ofKind k)
  names : s.names = t.names
  order : s.order = t.order

structure System.Corresponds (m n : System) : Prop where
  name : m.name = n.name
  attributes : m.attributes.Corresponds σ n.attributes
  span : σ m.span n.span
  store : m.store.Corresponds σ n.store

structure Number.Corresponds {α : Type} (n m : Number α) : Prop where
  literal : n.literal.Corresponds σ m.literal
  value : n.value = m.value

inductive DraftItem.Corresponds : DraftItem → DraftItem → Prop
  | clock {n n' : Number UInt32} {x x' : Lexeme} : n.Corresponds σ n' → x.Corresponds σ x' →
    Corresponds (.clock n x) (.clock n' x')
  | int {n n' : Number UInt32} {lo lo' hi hi' v v' : Number Int32} {x x' : Lexeme} :
    n.Corresponds σ n' → lo.Corresponds σ lo' → hi.Corresponds σ hi' → v.Corresponds σ v' →
    x.Corresponds σ x' → Corresponds (.int n lo hi v x) (.int n' lo' hi' v' x')
  | event {x x' : Lexeme} : x.Corresponds σ x' → Corresponds (.event x) (.event x')
  | process {x x' : Lexeme} : x.Corresponds σ x' → Corresponds (.process x) (.process x')
  | location {p p' x x' : Lexeme} : p.Corresponds σ p' → x.Corresponds σ x' →
    Corresponds (.location p x) (.location p' x')
  | edge {p p' t t' o o' e e' : Lexeme} : p.Corresponds σ p' → t.Corresponds σ t' →
    o.Corresponds σ o' → e.Corresponds σ e' → Corresponds (.edge p t o e) (.edge p' t' o' e')
  | sync {cs ds : List SyncConstraint} : List.Forall₂ (SyncConstraint.Corresponds σ) cs ds →
    Corresponds (.sync cs) (.sync ds)

structure Store.Acceptance.Corresponds (a b : Store.Acceptance) : Prop where
  store : a.store.Corresponds σ b.store
  warning : Option.Rel (Diagnostic.Corresponds σ) a.warning b.warning

structure Entry.Corresponds (e f : Entry) : Prop where
  diagnostics : List.Forall₂ (Diagnostic.Corresponds σ) e.diagnostics f.diagnostics
  store : e.store.Corresponds σ f.store
  rest : List.Forall₂ (Word.Corresponds σ) e.rest f.rest

structure Report.Corresponds (r q : Report) : Prop where
  entries : List.Forall₂ (Diagnostic.Corresponds σ) r.entries q.entries
  errorCount : r.errorCount = q.errorCount

structure Session.Corresponds (s t : Session) : Prop where
  options : s.options = t.options
  words : List.Forall₂ (Word.Corresponds σ) s.words t.words
  close : s.close.Corresponds σ t.close
  report : s.report.Corresponds σ t.report
  earlierErrors : s.earlierErrors = t.earlierErrors
  network : Option.Rel (System.Corresponds σ) s.network t.network
  isFatal : s.isFatal = t.isFatal

/-- Checks that both pass, or fail with diagnostics that correspond. -/
abbrev SameCheck {α β : Type} (ρ : α → β → Prop) :
    Except Diagnostic α → Except Diagnostic β → Prop :=
  SameOutcome (Diagnostic.Corresponds σ) ρ

end Relations

variable {σ : Span → Span → Prop}

-- ============================================================================
-- Diagnostics
-- ============================================================================

/-- One problem is told of alike at places that correspond. -/
theorem Problem.corresponds_diagnostic (p : Problem) {a b : Span} (h : σ a b) :
    (p.diagnostic a).Corresponds σ (p.diagnostic b) :=
  ⟨rfl, h, rfl, rfl, rfl, .nil⟩

theorem Diagnostic.Corresponds.isError {d e : Diagnostic} (h : d.Corresponds σ e) :
    d.isError = e.isError := by
  rw [Diagnostic.isError, Diagnostic.isError, h.severity]

theorem Fault.Corresponds.diagnostic (hσ : Span.Compatible σ) {f g : Fault}
    (h : f.Corresponds σ g) : f.diagnostic.Corresponds σ g.diagnostic := by
  have hspan : σ f.span g.span := by
    rw [Fault.span, Fault.span, h.found.kind]
    split
    · exact hσ.point _ _ h.found.span
    · exact h.found.span
  have hhint : some f.context.hint = some g.context.hint := by rw [h.context]
  obtain ⟨c, w, ks⟩ := f
  obtain ⟨c', w', ks'⟩ := g
  obtain ⟨hcontext, hfound, hexpected⟩ := h
  simp only at hcontext hexpected
  have hproblem : Problem.unexpected w.kind w.text ks = .unexpected w'.kind w'.text ks' := by
    rw [hfound.kind, hfound.text, hexpected]
  have hsame := (Problem.unexpected w'.kind w'.text ks').corresponds_diagnostic hspan
  unfold Fault.diagnostic
  rw [hproblem]
  exact ⟨hsame.code, hsame.span, hsame.message, hsame.severity, hhint, hsame.related⟩

namespace SameOutcome

variable {α β γ δ : Type} {ρ : α → β → Prop} {τ : γ → δ → Prop} {x : Except Diagnostic α}
  {y : Except Diagnostic β}

/-- Checks one after the other. -/
theorem bind (h : SameCheck σ ρ x y) {f : α → Except Diagnostic γ} {g : β → Except Diagnostic δ}
    (hfg : ∀ a b, ρ a b → SameCheck σ τ (f a) (g b)) : SameCheck σ τ (x >>= f) (y >>= g) := by
  cases h with
  | ok hab => exact hfg _ _ hab
  | error hde => exact .error hde

theorem complaint (h : SameCheck σ ρ x y) :
    Option.Rel (Diagnostic.Corresponds σ) (complaint? x) (complaint? y) := by
  cases h with
  | ok _ => exact .none
  | error hde => exact .some hde

theorem toOption (h : SameCheck σ ρ x y) : Option.Rel ρ x.toOption y.toOption := by
  cases h with
  | ok hab => exact .some hab
  | error _ => exact .none

end SameOutcome

-- ============================================================================
-- Numerals
-- ============================================================================

namespace Lexeme.Corresponds

variable {l m : Lexeme}

theorem size (h : l.Corresponds σ m) : SameCheck σ Eq l.size m.size := by
  unfold Lexeme.size
  rw [h.text]
  cases Numeral.unsigned m.text with
  | ok n => exact .ok rfl
  | error e => exact .error ((Problem.unsignedRange e).corresponds_diagnostic h.span)

theorem bound (h : l.Corresponds σ m) : SameCheck σ Eq l.bound m.bound := by
  unfold Lexeme.bound
  rw [h.text]
  cases Numeral.signed m.text with
  | ok n => exact .ok rfl
  | error e => exact .error ((Problem.signedRange e).corresponds_diagnostic h.span)

theorem sizeNumber (h : l.Corresponds σ m) : l.sizeNumber.Corresponds σ m.sizeNumber :=
  ⟨h, rel_eq_iff.mp h.size.toOption⟩

theorem boundNumber (h : l.Corresponds σ m) : l.boundNumber.Corresponds σ m.boundNumber :=
  ⟨h, rel_eq_iff.mp h.bound.toOption⟩

end Lexeme.Corresponds

theorem Number.Corresponds.checkSize {n m : Number UInt32} (h : n.Corresponds σ m) (kind : Kind)
    {x y : Lexeme} (hxy : x.Corresponds σ y) :
    SameCheck σ Eq (n.checkSize kind x) (m.checkSize kind y) := by
  rw [Number.checkSize, Number.checkSize, h.value, hxy.text]
  split
  · exact .error ((Problem.zeroSize kind y.text).corresponds_diagnostic h.literal.span)
  · exact .ok rfl

-- ============================================================================
-- Checks of a store
-- ============================================================================

theorem forall₂_getElem? {α β : Type} {r : α → β → Prop} {as : List α} {bs : List β}
    (h : List.Forall₂ r as bs) (i : Nat) : Option.Rel r as[i]? bs[i]? := by
  induction h generalizing i with
  | nil => exact .none
  | cons hab _ ih =>
    cases i with
    | zero => exact .some hab
    | succ i =>
      rw [List.getElem?_cons_succ, List.getElem?_cons_succ]
      exact ih i

namespace Item.Corresponds

variable {i j : Item}

theorem kind (h : i.Corresponds σ j) : i.kind = j.kind := by
  cases h with
  | same => rfl
  | sync => rfl

theorem key? (h : i.Corresponds σ j) : i.key? = j.key? := by
  cases h with
  | same => rfl
  | sync => rfl

end Item.Corresponds

theorem Declaration.Corresponds.isLocationOf {d e : Declaration} (h : d.Corresponds σ e)
    (p : ProcessRef) : Store.isLocationOf p d = Store.isLocationOf p e := by
  obtain ⟨item, attributes, span⟩ := d
  obtain ⟨item', attributes', span'⟩ := e
  cases h.item <;> rfl

namespace Store.Corresponds

variable {s t : Store}

theorem refl_empty : Store.empty.Corresponds σ .empty :=
  ⟨fun k => by cases k <;> exact .nil, rfl, rfl⟩

theorem get? (h : s.Corresponds σ t) (id : DeclarationId) :
    Option.Rel (Declaration.Corresponds σ) (s.get? id) (t.get? id) :=
  forall₂_getElem? (h.ofKind id.kind) id.index

theorem holder? (h : s.Corresponds σ t) (scope : Scope) (name : String) :
    s.holder? scope name = t.holder? scope name := by
  rw [Store.holder?, Store.holder?, h.names]

theorem ref? (h : s.Corresponds σ t) (k : Kind) (scope : Scope) (name : String) :
    s.ref? k scope name = t.ref? k scope name := by
  rw [Store.ref?, Store.ref?, h.holder?]

theorem nextId (h : s.Corresponds σ t) (k : Kind) : s.nextId k = t.nextId k := by
  rw [Store.nextId, Store.nextId, (h.ofKind k).length_eq]

section Names

variable {l m : Lexeme} (hlm : l.Corresponds σ m)

include hlm

theorem findProcess (h : s.Corresponds σ t) :
    SameCheck σ Eq (s.findProcess l) (t.findProcess m) := by
  rw [Store.findProcess, Store.findProcess, process?, process?, h.ref?, hlm.text]
  split
  · exact .ok rfl
  · exact .error ((Problem.undeclaredProcess m.text).corresponds_diagnostic hlm.span)

theorem findEvent (h : s.Corresponds σ t) :
    SameCheck σ Eq (s.findEvent l) (t.findEvent m) := by
  rw [Store.findEvent, Store.findEvent, event?, event?, h.ref?, hlm.text]
  split
  · exact .ok rfl
  · exact .error ((Problem.undeclaredEvent m.text).corresponds_diagnostic hlm.span)

theorem findLocation (h : s.Corresponds σ t) (p : ProcessRef) {x y : Lexeme}
    (hxy : x.Corresponds σ y) :
    SameCheck σ Eq (s.findLocation p x l) (t.findLocation p y m) := by
  rw [Store.findLocation, Store.findLocation, location?, location?, h.ref?, hlm.text, hxy.text]
  split
  · exact .ok rfl
  · exact .error ((Problem.undeclaredLocation m.text y.text).corresponds_diagnostic hlm.span)

/-- Where a name is taken, the declaration that holds it is pointed to on both sides. -/
theorem checkFree (h : s.Corresponds σ t) (scope : Scope) (problem : Kind → Problem) :
    SameCheck σ Eq (s.checkFree scope l problem) (t.checkFree scope m problem) := by
  rw [Store.checkFree, Store.checkFree, h.holder?, hlm.text]
  split
  · exact .ok rfl
  · next id _ =>
    have hsame := (problem id.kind).corresponds_diagnostic hlm.span
    have hprevious : List.Forall₂ (Related.Corresponds σ) (s.previous id) (t.previous id) := by
      rw [previous, previous]
      rcases none_or_some (h.get? id) with ⟨hs, ht⟩ | ⟨d, e, hs, ht, hde⟩
      · rw [hs, ht]
        exact .nil
      · rw [hs, ht]
        exact .cons ⟨rfl, hde.span⟩ .nil
    exact .error ⟨hsame.code, hsame.span, hsame.message, hsame.severity, hsame.hint, hprevious⟩

theorem findEnds (h : s.Corresponds σ t) {x y : Lexeme} (hxy : x.Corresponds σ y) :
    SameCheck σ Eq (s.findEnds l x) (t.findEnds m y) := by
  refine (h.findProcess hlm).bind ?_
  rintro p _ rfl
  refine (h.findEvent hxy).bind ?_
  rintro e _ rfl
  exact .ok rfl

end Names

theorem constraint (h : s.Corresponds σ t) {l m : Link} (hlm : l.Corresponds σ m) :
    Option.Rel (SyncConstraint.Corresponds σ) (l.constraint s).toOption
      (m.constraint t).toOption := by
  rw [Link.constraint, Link.constraint]
  rcases (h.findEnds hlm.process hlm.event).ok_or_error with
    ⟨ends, _, hs, ht, rfl⟩ | ⟨d, e, hs, ht, -⟩
  · rw [hs, ht]
    exact .some ⟨rfl, rfl, hlm.strength, hlm.span⟩
  · rw [hs, ht]
    exact .none

theorem fault?_part (h : s.Corresponds σ t) {p q : Part} (hpq : p.Corresponds σ q) :
    Option.Rel (Diagnostic.Corresponds σ) (p.fault? s) (q.fault? t) := by
  cases hpq with
  | size hl => exact hl.size.complaint
  | bound hl => exact hl.bound.complaint
  | link hl hl' => exact (h.findEnds hl hl').complaint

theorem draft (h : s.Corresponds σ t) {φ ψ : Phrase} (hφ : φ.Corresponds σ ψ) :
    (φ.draft s).Corresponds σ (ψ.draft t) := by
  cases hφ with
  | clock hsize hname => exact .clock hsize.sizeNumber hname
  | int hsize hlo hhi hv hname =>
    exact .int hsize.sizeNumber hlo.boundNumber hhi.boundNumber hv.boundNumber hname
  | event hname => exact .event hname
  | process hname => exact .process hname
  | location hp hname => exact .location hp hname
  | edge hp ht ho he => exact .edge hp ht ho he
  | sync hlinks => exact .sync (List.rel_filterMap (fun _ _ hl => h.constraint hl) hlinks)

theorem resolve (h : s.Corresponds σ t) {i j : DraftItem} (hij : i.Corresponds σ j) :
    SameCheck σ (Item.Corresponds σ) (s.resolve i) (t.resolve j) := by
  cases hij with
  | @clock n n' x x' hsize hname =>
    simp only [Store.resolve, hsize.value, hname.text]
    refine (h.checkFree hname _ _).bind fun _ _ _ => ?_
    exact (hsize.checkSize .clock hname).bind fun _ _ _ => .ok (.same (by simp [Item.kind]))
  | int hsize hlo hhi hv hname =>
    simp only [Store.resolve, hsize.value, hlo.value, hhi.value, hv.value, hname.text]
    refine (h.checkFree hname _ _).bind fun _ _ _ => ?_
    exact (hsize.checkSize .int hname).bind fun _ _ _ => .ok (.same (by simp [Item.kind]))
  | event hname =>
    simp only [Store.resolve, hname.text]
    exact (h.checkFree hname _ _).bind fun _ _ _ => .ok (.same (by simp [Item.kind]))
  | process hname =>
    simp only [Store.resolve, hname.text]
    exact (h.checkFree hname _ _).bind fun _ _ _ => .ok (.same (by simp [Item.kind]))
  | location hp hname =>
    simp only [Store.resolve, hname.text, hp.text]
    refine (h.findProcess hp).bind ?_
    rintro p _ rfl
    exact (h.checkFree hname _ _).bind fun _ _ _ => .ok (.same (by simp [Item.kind]))
  | edge hp ht ho he =>
    refine (h.findProcess hp).bind ?_
    rintro p _ rfl
    refine (h.findLocation ht p hp).bind ?_
    rintro target _ rfl
    refine (h.findLocation ho p hp).bind ?_
    rintro source _ rfl
    refine (h.findEvent he).bind ?_
    rintro e _ rfl
    exact .ok (.same (by simp [Item.kind]))
  | sync hcs => exact .ok (.sync hcs)

-- ============================================================================
-- Insertion
-- ============================================================================

theorem processFault? (h : s.Corresponds σ t) (p : ProcessRef) :
    s.processFault? p = t.processFault? p := by
  rw [Store.processFault?, Store.processFault?]
  rcases none_or_some (h.get? p.id) with ⟨hs, ht⟩ | ⟨d, e, hs, ht, -⟩
  · rw [hs, ht]
  · rw [hs, ht]
    rfl

theorem eventFault? (h : s.Corresponds σ t) (e : EventRef) : s.eventFault? e = t.eventFault? e := by
  rw [Store.eventFault?, Store.eventFault?]
  rcases none_or_some (h.get? e.id) with ⟨hs, ht⟩ | ⟨d, f, hs, ht, -⟩
  · rw [hs, ht]
  · rw [hs, ht]
    rfl

theorem locationFault? (h : s.Corresponds σ t) (p : ProcessRef) (l : LocationRef) :
    s.locationFault? p l = t.locationFault? p l := by
  rw [Store.locationFault?, Store.locationFault?]
  rcases none_or_some (h.get? l.id) with ⟨hs, ht⟩ | ⟨d, e, hs, ht, hde⟩
  · rw [hs, ht]
  · rw [hs, ht, Option.any_some, Option.any_some, hde.isLocationOf]

/-- Stores that correspond find the same fault with items that do. -/
theorem fault? (h : s.Corresponds σ t) {i j : Item} (hij : i.Corresponds σ j) :
    s.fault? i = t.fault? j := by
  have hreference : s.referenceFault? i = t.referenceFault? j := by
    cases hij with
    | same =>
      cases i <;>
        simp only [referenceFault?, h.processFault?, h.eventFault?, h.locationFault?]
    | sync hcs =>
      simp only [referenceFault?]
      induction hcs with
      | nil => rfl
      | cons hc _ ih =>
        rw [List.findSome?_cons, List.findSome?_cons, hc.process, hc.event, h.processFault?,
          h.eventFault?, ih]
  have hname : s.nameFault? i = t.nameFault? j := by
    simp only [nameFault?, hij.key?, h.holder?]
  rw [Store.fault?, Store.fault?, hreference, hname]

theorem push (h : s.Corresponds σ t) {d e : Declaration} (hde : d.Corresponds σ e) :
    (s.push d).Corresponds σ (t.push e) := by
  have hkind : d.kind = e.kind := hde.item.kind
  have hid : s.nextId d.kind = t.nextId e.kind := by rw [hkind, h.nextId]
  refine ⟨fun k => ?_, ?_, ?_⟩
  · rw [ofKind_push, ofKind_push, hkind]
    split
    · exact forall₂_concat (h.ofKind k) hde
    · exact h.ofKind k
  · show register s.names d (s.nextId d.kind) = register t.names e (t.nextId e.kind)
    have hkey : d.key? = e.key? := hde.item.key?
    rw [hid, h.names, register, register, hkey]
  · show s.order ++ [s.nextId d.kind] = t.order ++ [t.nextId e.kind]
    rw [hid, h.order]

end Store.Corresponds

-- ============================================================================
-- Acceptance
-- ============================================================================

theorem DraftItem.Corresponds.kind {i j : DraftItem} (h : i.Corresponds σ j) :
    i.kind = j.kind := by
  cases h <;> rfl

theorem DraftItem.Corresponds.checkBounds {i j : DraftItem} (h : i.Corresponds σ j)
    (check : BoundsCheck) :
    SameCheck σ (Option.Rel (Diagnostic.Corresponds σ)) (i.checkBounds check)
      (j.checkBounds check) := by
  have hproblem : Option.Rel (Diagnostic.Corresponds σ) i.boundsProblem? j.boundsProblem? := by
    cases h with
    | int hsize hlo hhi hv hname =>
      simp only [boundsProblem?, hlo.value, hhi.value, hv.value, hname.text]
      split
      · split
        · exact .none
        · exact .some (Problem.corresponds_diagnostic _ hv.literal.span)
      · exact .none
    | _ => exact .none
  unfold DraftItem.checkBounds
  revert hproblem
  cases i.boundsProblem? <;> cases j.boundsProblem? <;> intro hproblem <;> cases hproblem <;>
    cases check
  · exact .ok .none
  · exact .ok .none
  · exact .ok .none
  · exact .ok .none
  · next hde => exact .ok (.some ⟨hde.code, hde.span, hde.message, rfl, hde.hint, hde.related⟩)
  · next hde => exact .error hde

namespace Store.Corresponds

variable {s t : Store}

/-- **Acceptance.** A draft fares alike in stores that correspond. -/
theorem accept (h : s.Corresponds σ t) (check : BoundsCheck) {i j : DraftItem}
    (hij : i.Corresponds σ j) {as bs : Attributes} (hattributes : as.Corresponds σ bs) {a b : Span}
    (hspan : σ a b) :
    SameCheck σ (Acceptance.Corresponds σ) (s.accept check ⟨i, as, a⟩)
      (t.accept check ⟨j, bs, b⟩) := by
  refine (h.resolve hij).bind fun item item' hitem => ?_
  refine (hij.checkBounds check).bind fun w w' hw => ?_
  have hdeclaration : Declaration.Corresponds σ ⟨item, as, a⟩ ⟨item', bs, b⟩ :=
    ⟨hitem, hattributes, hspan⟩
  have hfault := h.fault? hitem
  have hkind : Draft.kind ⟨i, as, a⟩ = Draft.kind ⟨j, bs, b⟩ := hij.kind
  simp only [insert, hfault]
  cases t.fault? item' with
  | none => exact .ok ⟨h.push hdeclaration, hw⟩
  | some e =>
    simp only [hkind]
    exact .error (Problem.corresponds_diagnostic _ hspan)

theorem rel_toList {α β : Type} {r : α → β → Prop} {a : Option α} {b : Option β}
    (h : Option.Rel r a b) : List.Forall₂ r a.toList b.toList := by
  cases h with
  | none => exact .nil
  | some hab => exact .cons hab .nil

/-- **One line.** In stores that correspond, lines that correspond are entered alike. -/
theorem enter (hσ : Span.Compatible σ) (h : s.Corresponds σ t) (check : BoundsCheck)
    {close close' : Word} (hclose : close.Corresponds σ close') {ws vs : List Word}
    (hws : List.Forall₂ (Word.Corresponds σ) ws vs) :
    (s.enter check close ws).Corresponds σ (t.enter check close' vs) := by
  have hread := Phrase.corresponds_opening.read hσ hws
  have hnotes : List.Forall₂ (Diagnostic.Corresponds σ)
      ((Phrase.opening.read ws).parts.filterMap (Part.fault? s))
      ((Phrase.opening.read vs).parts.filterMap (Part.fault? t)) :=
    List.rel_filterMap (fun _ _ hpq => h.fault?_part hpq) hread.parts
  have hleft := hread.left .start hclose
  have hspan := hread.span hσ hclose
  unfold Store.enter
  dsimp only
  rcases (hread.outcome hclose).ok_or_error with
    ⟨⟨φ, as⟩, ⟨ψ, bs⟩, hs, ht, hφ, has⟩ | ⟨f, g, hs, ht, hfault⟩
  · rw [hs, ht]
    dsimp only
    rcases (h.accept check (h.draft hφ) has hspan).ok_or_error with
      ⟨a, b, hs, ht, hab⟩ | ⟨d, e, hs, ht, hde⟩
    · rw [hs, ht]
      exact ⟨List.rel_append hnotes (rel_toList hab.warning), hab.store, hleft⟩
    · rw [hs, ht]
      exact ⟨forall₂_concat hnotes hde, h, hleft⟩
  · rw [hs, ht]
    exact ⟨forall₂_concat hnotes (hfault.diagnostic hσ), h, hleft⟩

end Store.Corresponds

-- ============================================================================
-- Sessions
-- ============================================================================

theorem Report.Corresponds.append {r q : Report} (h : r.Corresponds σ q) {ds es : List Diagnostic}
    (hde : List.Forall₂ (Diagnostic.Corresponds σ) ds es) :
    (r.append ds).Corresponds σ (q.append es) := by
  have hcount : ds.countP Diagnostic.isError = es.countP Diagnostic.isError := by
    induction hde with
    | nil => rfl
    | cons hd _ ih => rw [List.countP_cons, List.countP_cons, ih, hd.isError]
  constructor
  · rw [entries_append, entries_append]
    exact List.rel_append h.entries hde
  · rw [errorCount_append, errorCount_append, h.errorCount, hcount]

namespace Session.Corresponds

variable {s t : Session}

theorem say (h : s.Corresponds σ t) {ds es : List Diagnostic}
    (hde : List.Forall₂ (Diagnostic.Corresponds σ) ds es) : (s.say ds).Corresponds σ (t.say es) :=
  { h with report := h.report.append hde }

theorem goTo (h : s.Corresponds σ t) {ws vs : List Word}
    (hws : List.Forall₂ (Word.Corresponds σ) ws vs) : (s.goTo ws).Corresponds σ (t.goTo vs) :=
  { h with words := hws }

theorem keep (h : s.Corresponds σ t) {m n : Option System}
    (hmn : Option.Rel (System.Corresponds σ) m n) : (s.keep m).Corresponds σ (t.keep n) :=
  { h with network := hmn }

theorem giveUp (h : s.Corresponds σ t) : s.giveUp.Corresponds σ t.giveUp :=
  { h with isFatal := rfl }

theorem errorCount (h : s.Corresponds σ t) : s.errorCount = t.errorCount := by
  rw [Session.errorCount, Session.errorCount, h.report.errorCount, h.earlierErrors]

theorem isOverLimit (h : s.Corresponds σ t) : s.isOverLimit = t.isOverLimit := by
  rw [Session.isOverLimit, Session.isOverLimit, h.options, h.errorCount]

theorem abort (h : s.Corresponds σ t) : s.abort.Corresponds σ t.abort := by
  have hcurrent : s.current.Corresponds σ t.current := forall₂_headD h.words h.close
  rw [Session.abort, Session.abort, h.errorCount]
  exact (h.say (.cons (Problem.corresponds_diagnostic _ hcurrent.span) .nil)).giveUp

theorem readHeader (hσ : Span.Compatible σ) (h : s.Corresponds σ t) :
    Option.Rel (System.Corresponds σ) s.readHeader.1 t.readHeader.1 ∧
      s.readHeader.2.Corresponds σ t.readHeader.2 := by
  have hskip := forall₂_skipLineEnds (fun _ _ hvw => hvw.kind) h.words
  have hread := Header.corresponds_opening.read hσ hskip
  have hleft := hread.left .header h.close
  have hspan := hread.span hσ h.close
  unfold Session.readHeader
  dsimp only
  rcases (hread.outcome h.close).ok_or_error with
    ⟨⟨x, as⟩, ⟨y, bs⟩, hs, ht, hname, has⟩ | ⟨f, g, hs, ht, hfault⟩
  · rw [hs, ht]
    exact ⟨.some ⟨hname.text, has, hspan, .refl_empty⟩, h.goTo hleft⟩
  · rw [hs, ht]
    exact ⟨.none, ((h.say (.cons (hfault.diagnostic hσ) .nil)).goTo hleft).giveUp⟩

end Session.Corresponds

/-- Sessions that correspond go in lockstep. -/
theorem Session.lockstep_corresponds (hσ : Span.Compatible σ) :
    Lockstep (Word.Corresponds σ) (Store.Corresponds σ) (System.Corresponds σ)
      (Session.Corresponds σ) where
  kind _ _ h := h.kind
  words _ _ h := h.words
  goTo _ _ h _ _ hws := h.goTo hws
  keep _ _ h _ _ hmn := h.keep hmn
  isOverLimit _ _ h := h.isOverLimit
  abort _ _ h := h.abort
  readHeader _ _ h := h.readHeader hσ
  empty := .refl_empty
  turn s t h a b hab ws vs hws := by
    have hentry : (s.enter a ws).Corresponds σ (t.enter b vs) := by
      rw [enter, enter, h.options]
      exact hab.enter hσ _ h.close hws
    exact ⟨hentry.store, (h.say hentry.diagnostics).goTo hentry.rest⟩
  filled _ _ h _ _ hab := { h with store := hab }
  verdict _ _ h := ⟨h.isFatal, h.errorCount⟩
  network _ _ h := h.network

end TimedNet
