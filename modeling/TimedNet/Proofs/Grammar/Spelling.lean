/-
  TimedNet.Proofs.Grammar.Spelling

  How a line is written that makes something up. Its first word is the keyword of a rule; then
  come the fields or links of the rule, each behind a `:`, and what is left is an attribute list
  or nothing (`Spelled`). What a place still asks of the words behind it is written down as
  `Completes`; each word that is read hands on what is left of it, so what was read of a line is
  how it is spelled (`spelled_of_outcome`).
-/
import Mathlib.Data.List.Forall2
import TimedNet.Grammar.Phrase
import TimedNet.Grammar.Reading

namespace TimedNet

-- ============================================================================
-- Spelled lines
-- ============================================================================

/-- The words of an attribute list, as far as they matter here: none, or such that begin with `{`.
-/
def IsListOrEmpty (ws : List Word) : Prop := ∀ w ∈ ws.head?, w.kind = .lBrace

/-- A link is written as `:`, a name, `@` and a name; a weak one has a `?` behind it. -/
inductive Link.Spelled : Link → List Word → Prop
  | strong {colon owner sign label : Word} (hcolon : colon.kind = .colon)
    (howner : owner.kind = .ident) (hsign : sign.kind = .atSign) (hlabel : label.kind = .ident) :
    Spelled (.strong owner.lexeme label.lexeme) [colon, owner, sign, label]
  | weak {colon owner sign label mark : Word} (hcolon : colon.kind = .colon)
    (howner : owner.kind = .ident) (hsign : sign.kind = .atSign) (hlabel : label.kind = .ident)
    (hmark : mark.kind = .question) :
    Spelled ((Link.strong owner.lexeme label.lexeme).weaken mark) [colon, owner, sign, label, mark]

/-- Links are written one behind the other. -/
def LinksSpelled (links : List Link) (ws : List Word) : Prop :=
  ∃ runs, List.Forall₂ Link.Spelled links runs ∧ ws = runs.flatten

section Spelled

variable {α : Type}

/-- Fields are written each behind a `:`, and make up an `α`. -/
def FieldsSpelled : (slots : List Slot) → Filling α slots → List Word → α → Prop
  | [], b, ws, a => ws = [] ∧ b = a
  | slot :: slots, fill, ws, a => ∃ colon w more, ws = colon :: w :: more ∧ colon.kind = .colon ∧
    w.kind = slot.kind ∧ FieldsSpelled slots (fill w.lexeme) more a

/-- What stands behind the keyword of a rule. -/
def Rule.Spelled : Rule α → List Word → α → Prop
  | .fields _ slots fill, ws, a => FieldsSpelled slots fill ws a
  | .links _ join, ws, a => ∃ links, links ≠ [] ∧ LinksSpelled links ws ∧ a = join links

/-- A line as the rules have it. -/
def Spelled (rules : List (Keyword × Rule α)) (line : List Word) (a : α) : Prop :=
  ∃ (first : Word) (k : Keyword) (r : Rule α) (body list : List Word),
    line = first :: (body ++ list) ∧ first.kind = .keyword k ∧ rules.lookup k = some r ∧
      r.Spelled body a ∧ IsListOrEmpty list

end Spelled

-- ============================================================================
-- What a place asks for
-- ============================================================================

/-- Links that words behind a step complete, the one that was begun included. -/
def LinkStep.Completes (links : List Link) (ws : List Word) : LinkStep → Prop
  | .lead => LinksSpelled links ws
  | .process => ∀ colon : Word, colon.kind = .colon → LinksSpelled links (colon :: ws)
  | .atSign l => ∀ colon owner : Word, colon.kind = .colon → owner.kind = .ident →
    owner.lexeme = l → LinksSpelled links (colon :: owner :: ws)
  | .event l => ∀ colon owner sign : Word, colon.kind = .colon → owner.kind = .ident →
    owner.lexeme = l → sign.kind = .atSign → LinksSpelled links (colon :: owner :: sign :: ws)
  | .done l => ∀ begun, l.Spelled begun → LinksSpelled links (begun ++ ws)

namespace Place

variable {α : Type}

/-- Words that lead from a place to where an `α` is made up. -/
def Completes : Place α → List Word → α → Prop
  | .opening _ rules, ws, a => Spelled rules ws a
  | .colon _ slot slots fill, ws, a => ∃ body list, ws = body ++ list ∧
    FieldsSpelled (slot :: slots) fill body a ∧ IsListOrEmpty list
  | .field _ slot slots fill, ws, a => ∃ w body list, ws = w :: (body ++ list) ∧
    w.kind = slot.kind ∧ FieldsSpelled slots (fill w.lexeme) body a ∧ IsListOrEmpty list
  | .filled _ b, ws, a => b = a ∧ IsListOrEmpty ws
  | .link _ join links step, ws, a => ∃ more body list, ws = body ++ list ∧
    more ≠ [] ∧ step.Completes more body ∧ a = join (links ++ more) ∧ IsListOrEmpty list
  | .list _ b _ _, _, a => b = a

theorem completes_ofSlots {c : Context} {slots : List Slot} {fill : Filling α slots}
    {ws : List Word} {a : α} (h : (ofSlots c slots fill).Completes ws a) :
    ∃ body list, ws = body ++ list ∧ FieldsSpelled slots fill body a ∧ IsListOrEmpty list := by
  cases slots with
  | nil => exact ⟨[], ws, rfl, ⟨rfl, h.1⟩, h.2⟩
  | cons slot slots => exact h

theorem completes_ofRule {r : Rule α} {ws : List Word} {a : α}
    (h : (ofRule r).Completes ws a) :
    ∃ body list, ws = body ++ list ∧ r.Spelled body a ∧ IsListOrEmpty list := by
  cases r with
  | fields c slots fill => exact completes_ofSlots h
  | links c join =>
    obtain ⟨more, body, list, hws, hne, hspelled, ha, hlist⟩ := h
    exact ⟨body, list, hws, ⟨more, hne, hspelled, ha⟩, hlist⟩

-- ============================================================================
-- One word
-- ============================================================================

/-- A link, followed by others. -/
theorem linksSpelled_cons {l : Link} {links : List Link} {begun ws : List Word}
    (hl : l.Spelled begun) (h : LinksSpelled links ws) :
    LinksSpelled (l :: links) (begun ++ ws) := by
  obtain ⟨runs, hruns, rfl⟩ := h
  exact ⟨begun :: runs, .cons hl hruns, rfl⟩

theorem linksSpelled_singleton {l : Link} {begun : List Word} (hl : l.Spelled begun) :
    LinksSpelled [l] (begun ++ []) :=
  linksSpelled_cons hl ⟨[], .nil, rfl⟩

/-- The mark behind a link makes it a weak one. -/
theorem spelled_weaken {l : Link} {begun : List Word} (hl : l.Spelled begun)
    (hstrong : l.strength = .strong) {mark : Word} (hmark : mark.kind = .question) :
    (l.weaken mark).Spelled (begun ++ [mark]) := by
  cases hl with
  | strong hcolon howner hsign hlabel => exact .weak hcolon howner hsign hlabel hmark
  | weak => exact absurd hstrong (by simp [Link.weaken])

theorem completes_nextInLink {c : Context} {join : List Link → α} {links : List Link}
    {step : LinkStep} {w : Word} {q : Place α} (h : nextInLink c join links w step = some q)
    {ws : List Word} {a : α} (hq : q.Completes ws a) :
    (link c join links step).Completes (w :: ws) a := by
  cases step with
  | lead =>
    obtain ⟨hkind, h⟩ := Option.ite_none_right_eq_some.mp h
    obtain rfl := Option.some.inj h
    obtain ⟨more, body, list, rfl, hne, hspelled, ha, hlist⟩ := hq
    exact ⟨more, w :: body, list, rfl, hne, hspelled w hkind, ha, hlist⟩
  | process =>
    obtain ⟨hkind, h⟩ := Option.ite_none_right_eq_some.mp h
    obtain rfl := Option.some.inj h
    obtain ⟨more, body, list, rfl, hne, hspelled, ha, hlist⟩ := hq
    refine ⟨more, w :: body, list, rfl, hne, ?_, ha, hlist⟩
    intro colon hcolon
    exact hspelled colon w hcolon hkind rfl
  | atSign l =>
    obtain ⟨hkind, h⟩ := Option.ite_none_right_eq_some.mp h
    obtain rfl := Option.some.inj h
    obtain ⟨more, body, list, rfl, hne, hspelled, ha, hlist⟩ := hq
    refine ⟨more, w :: body, list, rfl, hne, ?_, ha, hlist⟩
    intro colon owner hcolon howner hlexeme
    exact hspelled colon owner w hcolon howner hlexeme hkind
  | event l =>
    obtain ⟨hkind, h⟩ := Option.ite_none_right_eq_some.mp h
    obtain rfl := Option.some.inj h
    obtain ⟨more, body, list, rfl, hne, hspelled, ha, hlist⟩ := hq
    refine ⟨more, w :: body, list, rfl, hne, ?_, ha, hlist⟩
    -- the last word of a link, as long as no mark follows
    intro colon owner sign hcolon howner hlexeme hsign
    subst hlexeme
    exact hspelled [colon, owner, sign, w] (.strong hcolon howner hsign hkind)
  | done l =>
    simp only [nextInLink] at h
    split at h
    · next hkind =>
      obtain ⟨hstrong, h⟩ := Option.ite_none_right_eq_some.mp h
      obtain rfl := Option.some.inj h
      obtain ⟨more, body, list, rfl, hne, hspelled, ha, hlist⟩ := hq
      refine ⟨more, w :: body, list, rfl, hne, ?_, ha, hlist⟩
      intro begun hbegun
      have hmarked := hspelled _ (spelled_weaken hbegun hstrong hkind)
      rwa [List.append_assoc, List.singleton_append] at hmarked
    · next hkind =>
      obtain rfl := Option.some.inj h
      obtain ⟨more, body, list, rfl, -, hspelled, ha, hlist⟩ := hq
      rw [List.append_assoc, List.singleton_append] at ha
      refine ⟨l :: more, w :: body, list, rfl, by simp, ?_, ha, hlist⟩
      intro begun hbegun
      exact linksSpelled_cons hbegun (hspelled w hkind)
    · next hkind =>
      obtain rfl := Option.some.inj h
      have ha : join (links ++ [l]) = a := hq
      refine ⟨[l], [], w :: ws, rfl, by simp, ?_, ha.symm, ?_⟩
      · exact fun begun hbegun => linksSpelled_singleton hbegun
      · intro v hv
        obtain rfl := Option.some.inj hv
        exact hkind
    · exact absurd h (by simp)

/-- An attribute list goes on with what has been read. -/
theorem completes_nextInList {c : Context} {b : α} {entries : List Attribute} {step : ListStep}
    {w : Word} {q : Place α} (h : nextInList c b entries w step = some q) {ws : List Word} {a : α}
    (hq : q.Completes ws a) : b = a := by
  cases step with
  | closed => exact absurd h (by simp [nextInList])
  | _ =>
    simp only [nextInList] at h
    split at h <;> cases h <;> exact hq

/-- **One word.** What a place asks of the words behind it is that word, and what the next place
asks of the others. -/
theorem completes_next {p q : Place α} {w : Word} (h : p.next w = some q) {ws : List Word} {a : α}
    (hq : q.Completes ws a) : p.Completes (w :: ws) a := by
  cases p with
  | opening c rules =>
    simp only [next] at h
    split at h
    · next k hkind =>
      obtain ⟨r, hlookup, rfl⟩ := Option.map_eq_some_iff.mp h
      obtain ⟨body, list, rfl, hspelled, hlist⟩ := completes_ofRule hq
      exact ⟨w, k, r, body, list, rfl, hkind, hlookup, hspelled, hlist⟩
    · exact absurd h (by simp)
  | colon c slot slots fill =>
    obtain ⟨hkind, h⟩ := Option.ite_none_right_eq_some.mp h
    obtain rfl := Option.some.inj h
    obtain ⟨v, body, list, rfl, hv, hspelled, hlist⟩ := hq
    exact ⟨w :: v :: body, list, rfl, ⟨w, v, body, rfl, hkind, hv, hspelled⟩, hlist⟩
  | field c slot slots fill =>
    obtain ⟨hkind, h⟩ := Option.ite_none_right_eq_some.mp h
    obtain rfl := Option.some.inj h
    obtain ⟨body, list, rfl, hspelled, hlist⟩ := completes_ofSlots hq
    exact ⟨w, body, list, rfl, hkind, hspelled, hlist⟩
  | filled c b =>
    obtain ⟨hkind, h⟩ := Option.ite_none_right_eq_some.mp h
    obtain rfl := Option.some.inj h
    refine ⟨hq, fun v hv => ?_⟩
    obtain rfl := Option.some.inj hv
    exact hkind
  | link c join links step => exact completes_nextInLink h hq
  | list c b entries step => exact completes_nextInList h hq

-- ============================================================================
-- Readings
-- ============================================================================

/-- Where a line may end, nothing more is asked for. -/
theorem completes_nil {p : Place α} {a : α} {as : Attributes} (h : p.result? = some (a, as)) :
    p.Completes [] a := by
  have hempty : IsListOrEmpty [] := fun w hw => absurd hw (by simp)
  cases p with
  | filled c b =>
    obtain ⟨rfl, -⟩ := Prod.mk.inj (Option.some.inj h)
    exact ⟨rfl, hempty⟩
  | link c join links step =>
    cases step with
    | done l =>
      obtain ⟨rfl, -⟩ := Prod.mk.inj (Option.some.inj h)
      refine ⟨[l], [], [], rfl, by simp, ?_, rfl, hempty⟩
      exact fun begun hbegun => linksSpelled_singleton hbegun
    | _ => exact absurd h (by simp [result?])
  | list c b entries step =>
    cases step with
    | closed =>
      obtain ⟨rfl, -⟩ := Prod.mk.inj (Option.some.inj h)
      rfl
    | _ => exact absurd h (by simp [result?])
  | _ => exact absurd h (by simp [result?])

/-- **A reading.** The words that were read are those that the place asks for. -/
theorem completes_of_read {p : Place α} {ws : List Word} {a : α} {as : Attributes}
    (h : (p.read ws).place.result? = some (a, as)) : p.Completes (p.read ws).words a := by
  induction ws generalizing p with
  | nil => exact completes_nil h
  | cons w ws ih =>
    cases hnext : p.next w with
    | none =>
      rw [read_cons_of_none hnext] at h ⊢
      exact completes_nil h
    | some q =>
      rw [read_cons_of_some hnext] at h ⊢
      exact completes_next hnext (ih h)

/-- What was made up of a line is how it is spelled. -/
theorem spelled_of_outcome {c : Context} {rules : List (Keyword × Rule α)} {ws : List Word}
    {close : Word} {a : α} {as : Attributes}
    (h : ((opening c rules).read ws).outcome close = .ok (a, as)) :
    Spelled rules ((opening c rules).read ws).words a :=
  completes_of_read (Reading.outcome_eq_ok_iff.mp h).2

end Place

-- ============================================================================
-- What spelled lines make up
-- ============================================================================

section Makes

variable {α : Type} (Q : Lexeme → Prop) (P : α → Prop)

/-- Of lexemes with `Q`, fields make up what has `P`. -/
def FillingMakes : (slots : List Slot) → Filling α slots → Prop
  | [], a => P a
  | _ :: slots, fill => ∀ l, Q l → FillingMakes slots (fill l)

/-- Of lexemes with `Q`, a rule makes up what has `P`. -/
def Rule.Makes : Rule α → Prop
  | .fields _ slots fill => FillingMakes Q P slots fill
  | .links _ join => ∀ links : List Link, (∀ l ∈ links, Q l.process ∧ Q l.event) → P (join links)

variable {Q P}

theorem FieldsSpelled.makes {slots : List Slot} {fill : Filling α slots} {ws : List Word} {a : α}
    (h : FieldsSpelled slots fill ws a) (hws : ∀ w ∈ ws, Q w.lexeme)
    (hfill : FillingMakes Q P slots fill) : P a := by
  induction slots generalizing ws with
  | nil =>
    obtain ⟨-, rfl⟩ := h
    exact hfill
  | cons slot slots ih =>
    obtain ⟨colon, w, more, rfl, -, -, hmore⟩ := h
    refine ih hmore (fun v hv => hws v (by simp [hv])) ?_
    exact hfill w.lexeme (hws w (by simp))

theorem Link.Spelled.makes {l : Link} {run : List Word} (h : l.Spelled run)
    (hrun : ∀ w ∈ run, Q w.lexeme) : Q l.process ∧ Q l.event := by
  cases h with
  | strong => exact ⟨hrun _ (by simp), hrun _ (by simp)⟩
  | weak => exact ⟨hrun _ (by simp), hrun _ (by simp)⟩

/-- What the words behind a keyword make up. -/
theorem Rule.Spelled.makes {r : Rule α} {ws : List Word} {a : α} (h : r.Spelled ws a)
    (hws : ∀ w ∈ ws, Q w.lexeme) (hr : r.Makes Q P) : P a := by
  cases r with
  | fields c slots fill => exact FieldsSpelled.makes h hws hr
  | links c join =>
    obtain ⟨links, -, ⟨runs, hruns, rfl⟩, rfl⟩ := h
    apply hr
    induction hruns with
    | nil => exact fun l hl => absurd hl (by simp)
    | @cons l run links runs hl _ ih =>
      refine List.forall_mem_cons.mpr ⟨hl.makes fun w hw => hws w (by simp [hw]), ?_⟩
      exact ih fun w hw => hws w (List.mem_append_right run hw)

end Makes

end TimedNet
