/-
  TimedNet.Proofs.Session.Places

  Where diagnostics stand. Whatever is said about a line begins where one of its words does, or the
  word that ends it (`start_of_enter`): the lexemes that are checked are words of the line, and each
  check complains at a lexeme that it was given (`span_of_enter`).
-/
import TimedNet.Proofs.Grammar.Spelling
import TimedNet.Proofs.Session.Meaning

namespace TimedNet

-- ============================================================================
-- Lexemes of a line
-- ============================================================================

namespace Part

/-- What a part was read off. -/
def lexemes : Part → List Lexeme
  | .size literal => [literal]
  | .bound literal => [literal]
  | .link process event => [process, event]

end Part

namespace Phrase

/-- What a phrase was read off. -/
def lexemes : Phrase → List Lexeme
  | .clock size name => [size, name]
  | .int size min max initial name => [size, min, max, initial, name]
  | .event name => [name]
  | .process name => [name]
  | .location owner name => [owner, name]
  | .edge owner target source label => [owner, target, source, label]
  | .sync links => links.flatMap fun l => [l.process, l.event]

/-- The rules make phrases up of nothing but the lexemes that they are given. -/
theorem makes_lexemes (Q : Lexeme → Prop) :
    ∀ r ∈ rules, r.2.Makes Q fun φ => ∀ x ∈ φ.lexemes, Q x := by
  simp only [rules, List.mem_cons, List.not_mem_nil, or_false]
  rintro r (rfl | rfl | rfl | rfl | rfl | rfl | rfl)
  · exact fun size hsize name hname => by simp [FillingMakes, lexemes, hsize, hname]
  · exact fun p hp t ht o ho e he => by simp [FillingMakes, lexemes, hp, ht, ho, he]
  · exact fun name hname => by simp [FillingMakes, lexemes, hname]
  · exact fun size hsize lo hlo hi hhi v hv name hname => by
      simp [FillingMakes, lexemes, hsize, hlo, hhi, hv, hname]
  · exact fun p hp name hname => by simp [FillingMakes, lexemes, hp, hname]
  · exact fun name hname => by simp [FillingMakes, lexemes, hname]
  · intro links hlinks x hx
    obtain ⟨l, hl, hx⟩ := List.mem_flatMap.mp hx
    obtain ⟨hprocess, hevent⟩ := hlinks l hl
    rcases List.mem_cons.mp hx with rfl | hx
    · exact hprocess
    · exact List.mem_singleton.mp hx ▸ hevent

end Phrase

section Lexemes

variable {α : Type} {Q : Lexeme → Prop}

namespace Place

/-- Lexemes that were read, but belong to no part yet. -/
def pending : Place α → List Lexeme
  | .link _ _ _ (.atSign owner) => [owner]
  | .link _ _ _ (.event owner) => [owner]
  | _ => []

theorem pending_ofSlots (c : Context) (slots : List Slot) (fill : Filling α slots) :
    (ofSlots c slots fill).pending = [] := by
  cases slots <;> rfl

theorem pending_ofRule (r : Rule α) : (ofRule r).pending = [] := by
  cases r with
  | fields c slots fill => exact pending_ofSlots c slots fill
  | links c join => rfl

theorem pending_nextInLink {c : Context} {join : List Link → α} {links : List Link}
    {step : LinkStep} {w : Word} {q : Place α} (h : nextInLink c join links w step = some q) :
    ∀ x ∈ q.pending, x ∈ (link c join links step).pending ∨ x = w.lexeme := by
  cases step with
  | process =>
    obtain ⟨-, hq⟩ := Option.ite_none_right_eq_some.mp h
    obtain rfl := Option.some.inj hq
    exact fun x hx => Or.inr (List.mem_singleton.mp hx)
  | atSign owner =>
    obtain ⟨-, hq⟩ := Option.ite_none_right_eq_some.mp h
    obtain rfl := Option.some.inj hq
    exact fun x hx => Or.inl hx
  | done l =>
    simp only [nextInLink] at h
    split at h
    · obtain ⟨-, hq⟩ := Option.ite_none_right_eq_some.mp h
      obtain rfl := Option.some.inj hq
      exact fun x hx => absurd hx (by simp [pending])
    · obtain rfl := Option.some.inj h
      exact fun x hx => absurd hx (by simp [pending])
    · obtain rfl := Option.some.inj h
      exact fun x hx => absurd hx (by simp [pending])
    · exact absurd h (by simp)
  | _ =>
    obtain ⟨-, hq⟩ := Option.ite_none_right_eq_some.mp h
    obtain rfl := Option.some.inj hq
    exact fun x hx => absurd hx (by simp [pending])

/-- A word that is read is the only lexeme that can be new. -/
theorem pending_next {p q : Place α} {w : Word} (h : p.next w = some q) :
    ∀ x ∈ q.pending, x ∈ p.pending ∨ x = w.lexeme := by
  have hnone : q.pending = [] → ∀ x ∈ q.pending, x ∈ p.pending ∨ x = w.lexeme := by
    intro hq x hx
    rw [hq] at hx
    exact absurd hx (by simp)
  cases p with
  | opening c rules =>
    simp only [next] at h
    split at h
    · obtain ⟨r, -, rfl⟩ := Option.map_eq_some_iff.mp h
      exact hnone (pending_ofRule r)
    · exact absurd h (by simp)
  | colon c slot slots fill =>
    obtain ⟨-, hq⟩ := Option.ite_none_right_eq_some.mp h
    obtain rfl := Option.some.inj hq
    exact hnone rfl
  | field c slot slots fill =>
    obtain ⟨-, hq⟩ := Option.ite_none_right_eq_some.mp h
    obtain rfl := Option.some.inj hq
    exact hnone (pending_ofSlots c slots _)
  | filled c a =>
    obtain ⟨-, hq⟩ := Option.ite_none_right_eq_some.mp h
    obtain rfl := Option.some.inj hq
    exact hnone rfl
  | link c join links step => exact pending_nextInLink h
  | list c a entries step =>
    have hinside : q.isOutside = false := isOutside_nextInList h
    cases q with
    | list => exact hnone rfl
    | _ => exact absurd hinside (by simp [isOutside])

/-- The lexemes of a part are those that were pending, and the word that completes it. -/
theorem lexemes_of_part {p : Place α} {w : Word} {part : Part} (h : p.part? w = some part) :
    ∀ x ∈ part.lexemes, x ∈ p.pending ∨ x = w.lexeme := by
  cases p with
  | field c slot slots fill =>
    cases slot with
    | name => exact absurd h (by simp [part?])
    | _ =>
      obtain rfl := Option.some.inj h
      exact fun x hx => Or.inr (List.mem_singleton.mp hx)
  | link c join links step =>
    cases step with
    | event owner =>
      obtain rfl := Option.some.inj h
      intro x hx
      rcases List.mem_cons.mp hx with rfl | hx
      · exact Or.inl (List.mem_singleton_self x)
      · exact Or.inr (List.mem_singleton.mp hx)
    | _ => exact absurd h (by simp [part?])
  | _ => exact absurd h (by simp [part?])

/-- **A reading.** The parts that it completes are read off the words. -/
theorem lexemes_of_read {p : Place α} (hp : ∀ x ∈ p.pending, Q x) {ws : List Word}
    (hws : ∀ w ∈ ws, Q w.lexeme) : ∀ part ∈ (p.read ws).parts, ∀ x ∈ part.lexemes, Q x := by
  induction ws generalizing p with
  | nil => exact fun part hpart => absurd hpart (by simp [read])
  | cons w ws ih =>
    obtain ⟨hw, hws⟩ := List.forall_mem_cons.mp hws
    have hknown : ∀ x, x ∈ p.pending ∨ x = w.lexeme → Q x := by
      rintro x (hx | rfl)
      · exact hp x hx
      · exact hw
    cases hnext : p.next w with
    | none =>
      rw [read_cons_of_none hnext]
      exact fun part hpart => absurd hpart (by simp)
    | some q =>
      rw [read_cons_of_some hnext]
      intro part hpart
      rcases List.mem_append.mp hpart with hpart | hpart
      · have hdone := lexemes_of_part (Option.mem_toList.mp hpart)
        exact fun x hx => hknown x (hdone x hx)
      · exact ih (fun x hx => hknown x (pending_next hnext x hx)) hws part hpart

end Place

end Lexemes

/-- The parts of a line are made up of its words. -/
theorem exists_word_of_part {ws : List Word} :
    ∀ part ∈ (Phrase.opening.read ws).parts, ∀ x ∈ part.lexemes, ∃ w ∈ ws, w.lexeme = x :=
  Place.lexemes_of_read (fun _ hx => absurd hx List.not_mem_nil) fun w hw => ⟨w, hw, rfl⟩

/-- The phrase that a line is read as is made up of its words. -/
theorem exists_word_of_outcome {ws : List Word} {close : Word} {φ : Phrase} {as : Attributes}
    (h : (Phrase.opening.read ws).outcome close = .ok (φ, as)) :
    ∀ x ∈ φ.lexemes, ∃ w ∈ ws, w.lexeme = x := by
  let Q : Lexeme → Prop := fun x => ∃ w ∈ ws, w.lexeme = x
  have hspelled : Spelled Phrase.rules (Phrase.opening.read ws).words φ :=
    Place.spelled_of_outcome h
  have hall := Phrase.opening.read_words_append_rest ws
  obtain ⟨first, k, r, body, list, hwords, -, hlookup, hbody, -⟩ := hspelled
  have hmem : ∀ w ∈ body, Q w.lexeme := by
    intro w hw
    refine ⟨w, ?_, rfl⟩
    rw [← hall, hwords]
    simp [hw]
  obtain ⟨before, after, hrules, -⟩ := List.lookup_eq_some_iff.mp hlookup
  have hr : (k, r) ∈ Phrase.rules := by
    rw [hrules]
    simp
  exact hbody.makes hmem (Phrase.makes_lexemes Q (k, r) hr)

-- ============================================================================
-- Checks that fail
-- ============================================================================

/-- A diagnostic that is shown at one of several lexemes. -/
def IsAtOneOf (xs : List Lexeme) (d : Diagnostic) : Prop := ∃ x ∈ xs, d.span = x.span

namespace Store

variable {s : Store} {d : Diagnostic} {xs : List Lexeme}

/-- Each check complains at a lexeme that it was given. -/
theorem failsAt_findProcess {l : Lexeme} (hl : l ∈ xs) :
    FailsWith (IsAtOneOf xs) (s.findProcess l) := by
  unfold findProcess
  split
  · exact .ok _
  · exact .error ⟨l, hl, rfl⟩

theorem failsAt_findEvent {l : Lexeme} (hl : l ∈ xs) :
    FailsWith (IsAtOneOf xs) (s.findEvent l) := by
  unfold findEvent
  split
  · exact .ok _
  · exact .error ⟨l, hl, rfl⟩

theorem failsAt_findLocation {l : Lexeme} (hl : l ∈ xs) (p : ProcessRef) (owner : Lexeme) :
    FailsWith (IsAtOneOf xs) (s.findLocation p owner l) := by
  unfold findLocation
  split
  · exact .ok _
  · exact .error ⟨l, hl, rfl⟩

theorem failsAt_checkFree {name : Lexeme} (hname : name ∈ xs) (scope : Scope)
    (problem : Kind → Problem) : FailsWith (IsAtOneOf xs) (s.checkFree scope name problem) := by
  unfold checkFree
  split
  · exact .ok _
  · exact .error ⟨name, hname, rfl⟩

theorem failsAt_checkSize {size : Number UInt32} (hsize : size.literal ∈ xs) (kind : Kind)
    (name : Lexeme) : FailsWith (IsAtOneOf xs) (size.checkSize kind name) := by
  unfold Number.checkSize
  split
  · exact .error ⟨size.literal, hsize, rfl⟩
  · exact .ok _

theorem failsAt_checks (s : Store) {ys : List Lexeme} (h : ∀ l ∈ ys, l ∈ xs) :
    s.ChecksFailWith (IsAtOneOf xs) ys where
  process l hl := failsAt_findProcess (h l hl)
  event l hl := failsAt_findEvent (h l hl)
  location p owner l hl := failsAt_findLocation (h l hl) p owner
  free scope problem _ name hname := failsAt_checkFree (h name hname) scope problem
  size _ kind name hsize := failsAt_checkSize (h _ hsize) kind name

/-- A part is faulty at one of its lexemes. -/
theorem span_of_fault {part : Part} (h : part.fault? s = some d) : IsAtOneOf part.lexemes d := by
  cases part with
  | size literal =>
    obtain ⟨e, -, rfl⟩ := mapError_eq_error_iff.mp (complaint?_eq_some_iff.mp h)
    exact ⟨literal, List.mem_singleton_self _, rfl⟩
  | bound literal =>
    obtain ⟨e, -, rfl⟩ := mapError_eq_error_iff.mp (complaint?_eq_some_iff.mp h)
    exact ⟨literal, List.mem_singleton_self _, rfl⟩
  | link owner label =>
    have hends : FailsWith (IsAtOneOf (Part.link owner label).lexemes) (s.findEnds owner label) :=
      (failsAt_checks s fun l hl => hl).findEnds
    exact hends.complaint h

/-- What is looked at was read off the line. -/
theorem mem_lexemes_of_mem_checked {φ : Phrase} {l : Lexeme} (h : l ∈ (φ.draft s).checked) :
    l ∈ φ.lexemes := by
  cases φ with
  | sync links => exact absurd h List.not_mem_nil
  | int size min max initial name =>
    have hpair : l ∈ [size, name] := h
    rcases List.mem_pair.mp hpair with rfl | rfl <;> simp [Phrase.lexemes]
  | _ => exact h

/-- A phrase is not resolved because of one of its lexemes. -/
theorem failsAt_resolve (s : Store) (φ : Phrase) :
    FailsWith (IsAtOneOf φ.lexemes) (s.resolve (φ.draft s)) :=
  (failsAt_checks s fun _ => mem_lexemes_of_mem_checked).resolve

/-- Bounds are wrong at the initial value. -/
theorem span_of_checkBounds {φ : Phrase} {check : BoundsCheck}
    (h : (φ.draft s).checkBounds check = .error d ∨
      (φ.draft s).checkBounds check = .ok (some d)) : IsAtOneOf φ.lexemes d := by
  obtain ⟨e, he, hd⟩ := DraftItem.boundsProblem_of_checkBounds h
  obtain ⟨size, lower, upper, initial, name, _, _, _, hint, -, -, -, rfl⟩ :=
    DraftItem.exists_int_of_boundsProblem he
  rw [hd]
  cases φ with
  | int size' lower' upper' initial' name' =>
    obtain ⟨-, -, -, rfl, -⟩ := DraftItem.int.inj hint
    exact ⟨initial', by simp [Phrase.lexemes], rfl⟩
  | _ => exact absurd hint (by simp [Phrase.draft])

/-- A declaration is refused because of one of its lexemes, or as a whole. -/
theorem span_of_accept {φ : Phrase} {check : BoundsCheck} {as : Attributes} {span : Span}
    (h : s.accept check ⟨φ.draft s, as, span⟩ = .error d) :
    IsAtOneOf φ.lexemes d ∨ d.span = span := by
  rcases bind_eq_error_iff.mp h with h | ⟨i, -, h⟩
  · exact Or.inl (s.failsAt_resolve φ d h)
  · rcases bind_eq_error_iff.mp h with h | ⟨w, -, h⟩
    · exact Or.inl (span_of_checkBounds (Or.inl h))
    · right
      split at h
      · exact absurd h (by simp [pure, Except.pure])
      · exact Except.error.inj h ▸ rfl

end Store

-- ============================================================================
-- Lines
-- ============================================================================

/-- A fault is shown where the word begins that does not fit. -/
theorem Fault.start_diagnostic (f : Fault) :
    f.diagnostic.span.start = f.found.span.start := by
  show f.span.start = f.found.span.start
  unfold Fault.span
  split <;> rfl

theorem Reading.found_of_outcome {α : Type} {r : Reading α} {close : Word} {f : Fault}
    (h : r.outcome close = .error f) : f.found = r.stop close := by
  rw [(outcome_eq_error_iff.mp h).1]

/-- Reading stops at a word of the line, or at what ends it. -/
theorem Place.stop_mem {α : Type} (p : Place α) (close : Word) (ws : List Word) :
    (p.read ws).stop close ∈ close :: ws := by
  have hall := p.read_words_append_rest ws
  rw [Reading.stop]
  cases hrest : (p.read ws).rest with
  | nil => exact List.mem_cons_self
  | cons w more =>
    apply List.mem_cons_of_mem
    rw [hrest] at hall
    rw [← hall]
    simp

/-- The span of what was read begins at the first word, or where reading stops. -/
theorem Place.start_span {α : Type} (p : Place α) (close : Word) (ws : List Word) :
    ∃ w ∈ close :: ws, ((p.read ws).span close).start = w.span.start := by
  have hall := p.read_words_append_rest ws
  have hstop := p.stop_mem close ws
  refine ⟨(p.read ws).words.headD ((p.read ws).stop close), ?_, rfl⟩
  cases hwords : (p.read ws).words with
  | nil => exact hstop
  | cons w more =>
    apply List.mem_cons_of_mem
    rw [hwords] at hall
    rw [← hall]
    simp

/-- **One line.** Whatever is said about it is shown at one of its words, at the fault that it has,
or, if it has none, at the line as a whole. -/
theorem Store.span_of_enter {s : Store} {check : BoundsCheck} {close : Word} {ws : List Word}
    {d : Diagnostic} (h : d ∈ (s.enter check close ws).diagnostics) :
    (∃ w ∈ ws, d.span = w.span) ∨
      (∃ f, (Phrase.opening.read ws).outcome close = .error f ∧ d.span = f.span) ∨
      ∃ φ as, (Phrase.opening.read ws).outcome close = .ok (φ, as) ∧
        d.span = (Phrase.opening.read ws).span close := by
  have hlexeme : ∀ {xs : List Lexeme}, (∀ x ∈ xs, ∃ w ∈ ws, w.lexeme = x) → IsAtOneOf xs d →
      ∃ w ∈ ws, d.span = w.span := by
    rintro xs hxs ⟨x, hx, hspan⟩
    obtain ⟨w, hw, rfl⟩ := hxs x hx
    exact ⟨w, hw, hspan⟩
  rcases cause_of_enter h with ⟨part, hpart, hfault⟩ | ⟨f, houtcome, rfl⟩ |
    ⟨φ, as, houtcome, haccept | hbounds⟩
  · exact Or.inl (hlexeme (exists_word_of_part part hpart) (span_of_fault hfault))
  · exact Or.inr (Or.inl ⟨f, houtcome, rfl⟩)
  · rcases span_of_accept haccept with hspan | hspan
    · exact Or.inl (hlexeme (exists_word_of_outcome houtcome) hspan)
    · exact Or.inr (Or.inr ⟨φ, as, houtcome, hspan⟩)
  · have hspan := span_of_checkBounds (Or.inr hbounds)
    exact Or.inl (hlexeme (exists_word_of_outcome houtcome) hspan)

/-- What is said about a line begins where one of its words does, or the word that ends it. -/
theorem Store.start_of_enter {s : Store} {check : BoundsCheck} {close : Word} {ws : List Word}
    {d : Diagnostic} (h : d ∈ (s.enter check close ws).diagnostics) :
    ∃ w ∈ close :: ws, d.span.start = w.span.start := by
  rcases span_of_enter h with ⟨w, hw, hspan⟩ | ⟨f, houtcome, hspan⟩ | ⟨φ, as, -, hspan⟩
  · exact ⟨w, List.mem_cons_of_mem close hw, by rw [hspan]⟩
  · refine ⟨f.found, ?_, by rw [hspan]; exact f.start_diagnostic⟩
    rw [Reading.found_of_outcome houtcome]
    exact Phrase.opening.stop_mem close ws
  · rw [hspan]
    exact Phrase.opening.start_span close ws

end TimedNet
