/-
  TimedNet.Proofs.Grammar.Corresponds

  The same words at other places. Two words correspond if they are the same but for their spans, and
  those are related by `σ`. The grammar looks at spans only to make other spans of them, in three
  ways; if `σ` is kept by these, then what is read off corresponding words corresponds too
  (`Corresponds.read`). On the diagonal, where both sides are one, this is a statement about all
  spans that are made on the way: they have every property that is kept.
-/
import Mathlib.Data.List.Forall2
import TimedNet.Grammar.Phrase
import TimedNet.Grammar.Reading

namespace TimedNet

-- ============================================================================
-- Spans
-- ============================================================================

/-- A relation between spans that is kept by all ways to make spans of others. -/
structure Span.Compatible (σ : Span → Span → Prop) : Prop where
  /-- Where a span starts. -/
  point : ∀ a b, σ a b → σ (.point a.start) (.point b.start)
  /-- What covers two spans. -/
  cover : ∀ a b, σ a b → ∀ c d, σ c d → σ (a.cover c) (b.cover d)
  /-- From where a span starts to where another stops, unless that is further up. -/
  stretch : ∀ a b, σ a b → ∀ c d, σ c d →
    σ ⟨a.start, max a.start c.stop⟩ ⟨b.start, max b.start d.stop⟩

/-- Nothing has to be asked of spans. -/
theorem Span.compatible_true : Span.Compatible fun _ _ => True :=
  ⟨fun _ _ _ => trivial, fun _ _ _ _ _ _ => trivial, fun _ _ _ _ _ _ => trivial⟩

-- ============================================================================
-- Words and what they make up
-- ============================================================================

section Relations

variable (σ : Span → Span → Prop)

structure Lexeme.Corresponds (l m : Lexeme) : Prop where
  text : l.text = m.text
  span : σ l.span m.span

structure Word.Corresponds (v w : Word) : Prop where
  kind : v.kind = w.kind
  text : v.text = w.text
  span : σ v.span w.span

inductive Part.Corresponds : Part → Part → Prop
  | size {l m : Lexeme} : l.Corresponds σ m → Corresponds (.size l) (.size m)
  | bound {l m : Lexeme} : l.Corresponds σ m → Corresponds (.bound l) (.bound m)
  | link {l m l' m' : Lexeme} : l.Corresponds σ m → l'.Corresponds σ m' →
    Corresponds (.link l l') (.link m m')

structure Link.Corresponds (l m : Link) : Prop where
  process : l.process.Corresponds σ m.process
  event : l.event.Corresponds σ m.event
  strength : l.strength = m.strength
  span : σ l.span m.span

structure Attribute.Corresponds (a b : Attribute) : Prop where
  key : a.key = b.key
  value : a.value = b.value
  keySpan : σ a.keySpan b.keySpan
  valueSpan : σ a.valueSpan b.valueSpan

def Attributes.Corresponds (as bs : Attributes) : Prop :=
  List.Forall₂ (Attribute.Corresponds σ) as.entries bs.entries

inductive Phrase.Corresponds : Phrase → Phrase → Prop
  | clock {n n' x x' : Lexeme} : n.Corresponds σ n' → x.Corresponds σ x' →
    Corresponds (.clock n x) (.clock n' x')
  | int {n n' lo lo' hi hi' v v' x x' : Lexeme} : n.Corresponds σ n' → lo.Corresponds σ lo' →
    hi.Corresponds σ hi' → v.Corresponds σ v' → x.Corresponds σ x' →
    Corresponds (.int n lo hi v x) (.int n' lo' hi' v' x')
  | event {x x' : Lexeme} : x.Corresponds σ x' → Corresponds (.event x) (.event x')
  | process {x x' : Lexeme} : x.Corresponds σ x' → Corresponds (.process x) (.process x')
  | location {p p' x x' : Lexeme} : p.Corresponds σ p' → x.Corresponds σ x' →
    Corresponds (.location p x) (.location p' x')
  | edge {p p' t t' o o' e e' : Lexeme} : p.Corresponds σ p' → t.Corresponds σ t' →
    o.Corresponds σ o' → e.Corresponds σ e' → Corresponds (.edge p t o e) (.edge p' t' o' e')
  | sync {ls ms : List Link} : List.Forall₂ (Link.Corresponds σ) ls ms →
    Corresponds (.sync ls) (.sync ms)

structure Fault.Corresponds (f g : Fault) : Prop where
  context : f.context = g.context
  found : f.found.Corresponds σ g.found
  expected : f.expected = g.expected

-- ============================================================================
-- Places
-- ============================================================================

variable {α : Type} (ρ : α → α → Prop)

/-- Fields that correspond make up what is related by `ρ`. -/
def FillingCorresponds : (slots : List Slot) → Filling α slots → Filling α slots → Prop
  | [], a, b => ρ a b
  | _ :: slots, f, g =>
    ∀ l m : Lexeme, l.Corresponds σ m → FillingCorresponds slots (f l) (g m)

/-- Links that correspond make up what is related by `ρ`. -/
def JoinCorresponds (join : List Link → α) : Prop :=
  ∀ ls ms, List.Forall₂ (Link.Corresponds σ) ls ms → ρ (join ls) (join ms)

/-- A rule does not look at the spans of what it is filled with. -/
def Rule.Uniform : Rule α → Prop
  | .fields _ slots fill => FillingCorresponds σ ρ slots fill fill
  | .links _ join => JoinCorresponds σ ρ join

inductive LinkStep.Corresponds : LinkStep → LinkStep → Prop
  | lead : Corresponds .lead .lead
  | process : Corresponds .process .process
  | atSign {l m : Lexeme} : l.Corresponds σ m → Corresponds (.atSign l) (.atSign m)
  | event {l m : Lexeme} : l.Corresponds σ m → Corresponds (.event l) (.event m)
  | done {l m : Link} : l.Corresponds σ m → Corresponds (.done l) (.done m)

inductive ListStep.Corresponds : ListStep → ListStep → Prop
  | opened : Corresponds .opened .opened
  | key : Corresponds .key .key
  | colon {v w : Word} : v.Corresponds σ w → Corresponds (.colon v) (.colon w)
  | value {v w : Word} : v.Corresponds σ w → Corresponds (.value v) (.value w)
  | separator {v w v' w' : Word} : v.Corresponds σ w → v'.Corresponds σ w' →
    Corresponds (.separator v v') (.separator w w')
  | closed : Corresponds .closed .closed

inductive Place.Corresponds : Place α → Place α → Prop
  | opening (c : Context) {rules : List (Keyword × Rule α)} : (∀ r ∈ rules, r.2.Uniform σ ρ) →
    Corresponds (.opening c rules) (.opening c rules)
  | colon (c : Context) (slot : Slot) {slots : List Slot} {f g : Lexeme → Filling α slots} :
    FillingCorresponds σ ρ (slot :: slots) f g →
    Corresponds (.colon c slot slots f) (.colon c slot slots g)
  | field (c : Context) (slot : Slot) {slots : List Slot} {f g : Lexeme → Filling α slots} :
    FillingCorresponds σ ρ (slot :: slots) f g →
    Corresponds (.field c slot slots f) (.field c slot slots g)
  | filled (c : Context) {a b : α} : ρ a b → Corresponds (.filled c a) (.filled c b)
  | link (c : Context) {join : List Link → α} {ls ms : List Link} {step step' : LinkStep} :
    JoinCorresponds σ ρ join → List.Forall₂ (Link.Corresponds σ) ls ms →
    step.Corresponds σ step' → Corresponds (.link c join ls step) (.link c join ms step')
  | list (c : Context) {a b : α} {as bs : List Attribute} {step step' : ListStep} :
    ρ a b → List.Forall₂ (Attribute.Corresponds σ) as bs → step.Corresponds σ step' →
    Corresponds (.list c a as step) (.list c b bs step')

structure Reading.Corresponds (r q : Reading α) : Prop where
  words : List.Forall₂ (Word.Corresponds σ) r.words q.words
  parts : List.Forall₂ (Part.Corresponds σ) r.parts q.parts
  place : r.place.Corresponds σ ρ q.place
  rest : List.Forall₂ (Word.Corresponds σ) r.rest q.rest

end Relations

/-- Two checks of which both pass, or both fail. -/
inductive SameOutcome {ε α β : Type} (e : ε → ε → Prop) (ρ : α → β → Prop) :
    Except ε α → Except ε β → Prop
  | ok {a : α} {b : β} : ρ a b → SameOutcome e ρ (.ok a) (.ok b)
  | error {x y : ε} : e x y → SameOutcome e ρ (.error x) (.error y)

namespace SameOutcome

variable {ε α β : Type} {e : ε → ε → Prop} {ρ : α → β → Prop} {x : Except ε α} {y : Except ε β}

theorem ok_or_error (h : SameOutcome e ρ x y) :
    (∃ a b, x = .ok a ∧ y = .ok b ∧ ρ a b) ∨ ∃ a b, x = .error a ∧ y = .error b ∧ e a b := by
  cases h with
  | ok hab => exact Or.inl ⟨_, _, rfl, rfl, hab⟩
  | error hab => exact Or.inr ⟨_, _, rfl, rfl, hab⟩

end SameOutcome

theorem none_or_some {α β : Type} {r : α → β → Prop} {x : Option α} {y : Option β}
    (h : Option.Rel r x y) :
    (x = none ∧ y = none) ∨ ∃ a b, x = some a ∧ y = some b ∧ r a b := by
  cases h with
  | none => exact Or.inl ⟨rfl, rfl⟩
  | some hab => exact Or.inr ⟨_, _, rfl, rfl, hab⟩

-- ============================================================================
-- One word
-- ============================================================================

variable {σ : Span → Span → Prop}

theorem Word.Corresponds.lexeme {v w : Word} (h : v.Corresponds σ w) :
    v.lexeme.Corresponds σ w.lexeme :=
  ⟨h.text, h.span⟩

theorem forall₂_concat {α β : Type} {r : α → β → Prop} {as : List α} {bs : List β} {a : α} {b : β}
    (h : List.Forall₂ r as bs) (hab : r a b) : List.Forall₂ r (as ++ [a]) (bs ++ [b]) :=
  List.rel_append h (.cons hab .nil)

theorem rel_ite {α β : Type} {r : α → β → Prop} {a : α} {b : β} (c : Prop) [Decidable c]
    (h : r a b) : Option.Rel r (if c then some a else none) (if c then some b else none) := by
  split
  · exact .some h
  · exact .none

namespace Place

variable {α : Type} {ρ : α → α → Prop} {p q : Place α} {v w : Word}

theorem corresponds_ofSlots (c : Context) {slots : List Slot} {f g : Filling α slots}
    (h : FillingCorresponds σ ρ slots f g) :
    (ofSlots c slots f).Corresponds σ ρ (ofSlots c slots g) := by
  cases slots with
  | nil => exact .filled c h
  | cons slot slots => exact .colon c slot h

theorem corresponds_ofRule {r : Rule α} (h : r.Uniform σ ρ) :
    (ofRule r).Corresponds σ ρ (ofRule r) := by
  cases r with
  | fields c slots fill => exact corresponds_ofSlots c h
  | links c join => exact .link c h .nil .lead

theorem corresponds_bare (hσ : Span.Compatible σ) {k k' : Word} (hk : k.Corresponds σ k')
    (hw : v.Corresponds σ w) : (bare k v).Corresponds σ (bare k' w) :=
  ⟨hk.text, rfl, hk.span, hσ.point _ _ hw.span⟩

theorem corresponds_valued {k k' : Word} (hk : k.Corresponds σ k') (hw : v.Corresponds σ w) :
    (valued k v).Corresponds σ (valued k' w) :=
  ⟨hk.text, congrArg Text.trim hw.text, hk.span, hw.span⟩

theorem corresponds_nextInLink (hσ : Span.Compatible σ) (c : Context) {join : List Link → α}
    (hjoin : JoinCorresponds σ ρ join) {ls ms : List Link}
    (hlinks : List.Forall₂ (Link.Corresponds σ) ls ms) {step step' : LinkStep}
    (hstep : step.Corresponds σ step') (hw : v.Corresponds σ w) :
    Option.Rel (Corresponds σ ρ) (nextInLink c join ls v step) (nextInLink c join ms w step') := by
  cases hstep with
  | lead =>
    rw [nextInLink, nextInLink, hw.kind]
    exact rel_ite _ (.link c hjoin hlinks .process)
  | process =>
    rw [nextInLink, nextInLink, hw.kind]
    exact rel_ite _ (.link c hjoin hlinks (.atSign hw.lexeme))
  | atSign hl =>
    rw [nextInLink, nextInLink, hw.kind]
    exact rel_ite _ (.link c hjoin hlinks (.event hl))
  | event hl =>
    rw [nextInLink, nextInLink, hw.kind]
    exact rel_ite _ (.link c hjoin hlinks
      (.done ⟨hl, hw.lexeme, rfl, hσ.cover _ _ hl.span _ _ hw.span⟩))
  | @done l m hl =>
    have hall := forall₂_concat hlinks hl
    simp only [nextInLink, hw.kind, hl.strength]
    split
    · exact rel_ite _ (.link c hjoin hlinks
        (.done ⟨hl.process, hl.event, rfl, hσ.cover _ _ hl.span _ _ hw.span⟩))
    · exact .some (.link c hjoin hall .process)
    · exact .some (.list c (hjoin _ _ hall) .nil .opened)
    · exact .none

theorem corresponds_nextInList (hσ : Span.Compatible σ) (c : Context) {a b : α} (hab : ρ a b)
    {as bs : List Attribute} (hentries : List.Forall₂ (Attribute.Corresponds σ) as bs)
    {step step' : ListStep} (hstep : step.Corresponds σ step') (hw : v.Corresponds σ w) :
    Option.Rel (Corresponds σ ρ) (nextInList c a as v step) (nextInList c b bs w step') := by
  cases hstep with
  | opened =>
    simp only [nextInList, hw.kind]
    split
    · exact .some (.list c hab hentries (.colon hw))
    · exact .some (.list c hab hentries .closed)
    · exact .none
  | key =>
    simp only [nextInList, hw.kind]
    exact rel_ite _ (.list c hab hentries (.colon hw))
  | colon hk =>
    simp only [nextInList, hw.kind]
    exact rel_ite _ (.list c hab hentries (.value hk))
  | value hk =>
    have hbare := forall₂_concat hentries (corresponds_bare hσ hk hw)
    simp only [nextInList, hw.kind]
    split
    · exact .some (.list c hab hentries (.separator hk hw))
    · exact .some (.list c hab hbare .key)
    · exact .some (.list c hab hbare .closed)
    · exact .none
  | separator hk hv =>
    have hvalued := forall₂_concat hentries (corresponds_valued hk hv)
    simp only [nextInList, hw.kind]
    split
    · exact .some (.list c hab hvalued .key)
    · exact .some (.list c hab hvalued .closed)
    · exact .none
  | closed => exact .none

namespace Corresponds

/-- **One word.** From places that correspond, words that correspond lead to such places. -/
theorem next (hσ : Span.Compatible σ) (h : p.Corresponds σ ρ q) (hw : v.Corresponds σ w) :
    Option.Rel (Corresponds σ ρ) (p.next v) (q.next w) := by
  cases h with
  | @opening c rules hrules =>
    simp only [Place.next, hw.kind]
    split
    · next k _ =>
      cases hlookup : rules.lookup k with
      | none => exact .none
      | some r =>
        obtain ⟨before, after, rfl, -⟩ := List.lookup_eq_some_iff.mp hlookup
        exact .some (corresponds_ofRule (hrules (k, r) (by simp)))
    · exact .none
  | colon c slot hfill =>
    simp only [Place.next, hw.kind]
    exact rel_ite _ (.field c slot hfill)
  | field c slot hfill =>
    simp only [Place.next, hw.kind]
    exact rel_ite _ (corresponds_ofSlots c (hfill _ _ hw.lexeme))
  | filled c hab =>
    simp only [Place.next, hw.kind]
    exact rel_ite _ (.list c hab .nil .opened)
  | link c hjoin hlinks hstep => exact corresponds_nextInLink hσ c hjoin hlinks hstep hw
  | list c hab hentries hstep => exact corresponds_nextInList hσ c hab hentries hstep hw

theorem part? (h : p.Corresponds σ ρ q) (hw : v.Corresponds σ w) :
    List.Forall₂ (Part.Corresponds σ) (p.part? v).toList (q.part? w).toList := by
  cases h with
  | field c slot hfill =>
    cases slot with
    | size => exact .cons (.size hw.lexeme) .nil
    | bound => exact .cons (.bound hw.lexeme) .nil
    | name => exact .nil
  | link c hjoin hlinks hstep =>
    cases hstep with
    | event hl => exact .cons (.link hl hw.lexeme) .nil
    | _ => exact .nil
  | _ => exact .nil

theorem expected (h : p.Corresponds σ ρ q) : p.expected = q.expected := by
  cases h with
  | link c hjoin hlinks hstep =>
    cases hstep with
    | done hl => simp only [Place.expected, hl.strength]
    | _ => rfl
  | list c hab hentries hstep => cases hstep <;> rfl
  | _ => rfl

theorem context (h : p.Corresponds σ ρ q) : p.context = q.context := by
  cases h with
  | list c hab hentries hstep => cases hstep <;> rfl
  | _ => rfl

theorem result? (h : p.Corresponds σ ρ q) :
    Option.Rel (fun x y => ρ x.1 y.1 ∧ x.2.Corresponds σ y.2) p.result? q.result? := by
  cases h with
  | filled c hab => exact .some ⟨hab, .nil⟩
  | link c hjoin hlinks hstep =>
    cases hstep with
    | done hl => exact .some ⟨hjoin _ _ (forall₂_concat hlinks hl), .nil⟩
    | _ => exact .none
  | list c hab hentries hstep =>
    cases hstep with
    | closed => exact .some ⟨hab, hentries⟩
    | _ => exact .none
  | _ => exact .none

-- ============================================================================
-- Readings
-- ============================================================================

/-- **Readings.** Words that correspond are read equally far. -/
theorem read (hσ : Span.Compatible σ) (h : p.Corresponds σ ρ q) {ws vs : List Word}
    (hws : List.Forall₂ (Word.Corresponds σ) ws vs) :
    (p.read ws).Corresponds σ ρ (q.read vs) := by
  induction hws generalizing p q with
  | nil => exact ⟨.nil, .nil, h, .nil⟩
  | @cons w v ws vs hw hrest ih =>
    rcases none_or_some (h.next hσ hw) with ⟨hp, hq⟩ | ⟨p', q', hp, hq, hplace⟩
    · rw [read_cons_of_none hp, read_cons_of_none hq]
      exact ⟨.nil, .nil, h, .cons hw hrest⟩
    · have hmore := ih hplace
      rw [read_cons_of_some hp, read_cons_of_some hq]
      exact ⟨.cons hw hmore.words, List.rel_append (h.part? hw) hmore.parts, hmore.place,
        hmore.rest⟩

end Corresponds

end Place

theorem forall₂_headD {α β : Type} {r : α → β → Prop} {as : List α} {bs : List β} {a : α} {b : β}
    (h : List.Forall₂ r as bs) (hab : r a b) : r (as.headD a) (bs.headD b) := by
  cases h with
  | nil => exact hab
  | cons hxy _ => exact hxy

theorem forall₂_getLastD {α β : Type} {r : α → β → Prop} {as : List α} {bs : List β} {a : α}
    {b : β} (h : List.Forall₂ r as bs) (hab : r a b) : r (as.getLastD a) (bs.getLastD b) := by
  induction h generalizing a b with
  | nil => exact hab
  | cons hxy _ ih =>
    rw [List.getLastD_cons, List.getLastD_cons]
    exact ih hxy

/-- Words that correspond are dropped alike, if only their kinds decide. -/
theorem forall₂_dropWhile {f : TokenKind → Bool} {ws vs : List Word}
    (h : List.Forall₂ (Word.Corresponds σ) ws vs) :
    List.Forall₂ (Word.Corresponds σ) (ws.dropWhile fun w => f w.kind)
      (vs.dropWhile fun w => f w.kind) := by
  induction h with
  | nil => exact .nil
  | @cons w v ws vs hwv hrest ih =>
    rw [List.dropWhile_cons, List.dropWhile_cons, hwv.kind]
    split
    · exact ih
    · exact .cons hwv hrest

theorem forall₂_passLineEnd {ws vs : List Word} (h : List.Forall₂ (Word.Corresponds σ) ws vs) :
    List.Forall₂ (Word.Corresponds σ) (passLineEnd ws) (passLineEnd vs) := by
  cases h with
  | nil => exact .nil
  | cons hwv hrest =>
    rw [passLineEnd, passLineEnd, Word.isLineEnd, Word.isLineEnd, hwv.kind]
    split
    · exact hrest
    · exact .cons hwv hrest

namespace Reading.Corresponds

variable {α : Type} {ρ : α → α → Prop} {r q : Reading α} {close close' : Word}

theorem stop (h : r.Corresponds σ ρ q) (hclose : close.Corresponds σ close') :
    (r.stop close).Corresponds σ (q.stop close') :=
  forall₂_headD h.rest hclose

/-- Two lines that correspond are read to their end both, or have the same fault. -/
theorem outcome (h : r.Corresponds σ ρ q) (hclose : close.Corresponds σ close') :
    SameOutcome (Fault.Corresponds σ) (fun x y => ρ x.1 y.1 ∧ x.2.Corresponds σ y.2)
      (r.outcome close) (q.outcome close') := by
  have hstop := h.stop hclose
  have hfault : Fault.Corresponds σ ⟨r.place.context, r.stop close, r.place.expected⟩
      ⟨q.place.context, q.stop close', q.place.expected⟩ :=
    ⟨h.place.context, hstop, h.place.expected⟩
  rw [Reading.outcome, Reading.outcome, ← hstop.kind]
  cases (r.stop close).kind.endsDeclaration with
  | false => exact .error hfault
  | true =>
    rcases none_or_some h.place.result? with ⟨hr, hq⟩ | ⟨x, y, hr, hq, hxy⟩
    · rw [hr, hq]
      exact .error hfault
    · rw [hr, hq]
      exact .ok hxy

theorem left (h : r.Corresponds σ ρ q) (c : Context) (hclose : close.Corresponds σ close') :
    List.Forall₂ (Word.Corresponds σ) (r.left c close) (q.left c close') := by
  rw [Reading.left, Reading.left]
  rcases (h.outcome hclose).ok_or_error with ⟨x, y, hr, hq, -⟩ | ⟨f, g, hr, hq, -⟩
  · rw [hr, hq]
    exact forall₂_passLineEnd h.rest
  · rw [hr, hq]
    exact forall₂_dropWhile (f := fun k => !c.resumesAt k) h.rest

theorem span (hσ : Span.Compatible σ) (h : r.Corresponds σ ρ q)
    (hclose : close.Corresponds σ close') : σ (r.span close) (q.span close') := by
  have hfirst := forall₂_headD h.words (h.stop hclose)
  have hlast := forall₂_getLastD h.words hfirst
  exact hσ.stretch _ _ hfirst.span _ _ hlast.span

end Reading.Corresponds

-- ============================================================================
-- Rules
-- ============================================================================

/-- The rules of the declarations do not look at spans. -/
theorem Phrase.corresponds_opening :
    Phrase.opening.Corresponds σ (Phrase.Corresponds σ) Phrase.opening := by
  refine .opening .start ?_
  simp only [rules, List.mem_cons, List.not_mem_nil, or_false]
  rintro r (rfl | rfl | rfl | rfl | rfl | rfl | rfl)
  · exact fun _ _ hsize _ _ hname => .clock hsize hname
  · exact fun _ _ hp _ _ ht _ _ ho _ _ he => .edge hp ht ho he
  · exact fun _ _ hname => .event hname
  · exact fun _ _ hsize _ _ hlo _ _ hhi _ _ hv _ _ hname => .int hsize hlo hhi hv hname
  · exact fun _ _ hp _ _ hname => .location hp hname
  · exact fun _ _ hname => .process hname
  · exact fun _ _ hlinks => .sync hlinks

/-- The rule of the declaration of the network does not look at spans. -/
theorem Header.corresponds_opening :
    Header.opening.Corresponds σ (Lexeme.Corresponds σ) Header.opening := by
  refine .opening .header ?_
  simp only [rules, List.mem_singleton]
  rintro r rfl
  exact fun _ _ hname => hname

end TimedNet
