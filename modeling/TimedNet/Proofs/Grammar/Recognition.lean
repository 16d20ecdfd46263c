/-
  TimedNet.Proofs.Grammar.Recognition

  The machine that reads a line recognizes the grammar. A word may come next exactly if some rest of
  the line may follow it, and it leads to the place whose language is that of those rests
  (`cons_mem_remaining`). By induction on the words, a line is read to an end at which it may end
  exactly if it is in the language of the place where reading began (`mem_remaining_iff_read`).
-/
import Mathlib.Tactic.Abel
import TimedNet.Proofs.Grammar.Language
import TimedNet.Grammar.Reading

namespace TimedNet

open RegularExpression (char)

namespace Place

variable {α : Type}

-- ============================================================================
-- One word
-- ============================================================================

theorem cons_mem_remaining_list (c : Context) (a : α) (es : List Attribute) (step : ListStep)
    (w : Word) (ks : List TokenKind) :
    w.kind :: ks ∈ step.remaining ↔
      ∃ q : Place α, nextInList c a es w step = some q ∧ ks ∈ q.remaining := by
  cases step with
  | opened =>
    rw [ListStep.remaining, matches_attr_mul, Language.mem_add, cons_mem_token_mul, cons_mem_token]
    cases hk : w.kind <;> simp [nextInList, hk, remaining, ListStep.remaining]
  | key =>
    rw [ListStep.remaining, matches_attr_mul, cons_mem_token_mul]
    by_cases hk : w.kind = .ident <;> simp [nextInList, hk, remaining, ListStep.remaining]
  | colon k =>
    rw [ListStep.remaining, cons_mem_token_mul]
    by_cases hk : w.kind = .colon <;> simp [nextInList, hk, remaining, ListStep.remaining]
  | value k =>
    rw [ListStep.remaining, add_mul, one_mul, Language.mem_add, cons_mem_token_mul,
      cons_mem_moreEntries]
    cases hk : w.kind <;> simp [nextInList, hk, remaining, ListStep.remaining]
  | separator k v =>
    rw [ListStep.remaining, cons_mem_moreEntries]
    cases hk : w.kind <;> simp [nextInList, hk, remaining, ListStep.remaining]
  | closed => simp [ListStep.remaining, nextInList]

theorem cons_mem_remaining_link (c : Context) (join : List Link → α) (links : List Link)
    (step : LinkStep) (w : Word) (ks : List TokenKind) :
    w.kind :: ks ∈ step.remaining ↔
      ∃ q : Place α, nextInLink c join links w step = some q ∧ ks ∈ q.remaining := by
  cases step with
  | lead =>
    rw [LinkStep.remaining, cons_mem_token_mul]
    by_cases hk : w.kind = .colon <;> simp [nextInLink, hk, remaining, LinkStep.remaining]
  | process =>
    rw [LinkStep.remaining, matches_syncConstraint_mul, cons_mem_token_mul]
    by_cases hk : w.kind = .ident <;> simp [nextInLink, hk, remaining, LinkStep.remaining]
  | atSign p =>
    rw [LinkStep.remaining, cons_mem_token_mul]
    by_cases hk : w.kind = .atSign <;> simp [nextInLink, hk, remaining, LinkStep.remaining]
  | event p =>
    rw [LinkStep.remaining, cons_mem_token_mul]
    by_cases hk : w.kind = .ident <;>
      simp [nextInLink, hk, remaining, LinkStep.remaining, Link.strong]
  | done l =>
    rw [LinkStep.remaining]
    by_cases hl : l.strength = .strong
    · rw [if_pos hl, add_mul, one_mul, Language.mem_add, cons_mem_token_mul, cons_mem_moreLinks]
      cases hk : w.kind <;>
        simp [nextInLink, hk, hl, remaining, LinkStep.remaining, Link.weaken]
    · rw [if_neg hl, cons_mem_moreLinks]
      cases hk : w.kind <;> simp [nextInLink, hk, hl, remaining]

/-- A keyword opens at most one rule. -/
def Distinct : Place α → Prop
  | .opening _ rules => (rules.map Prod.fst).Nodup
  | _ => True

theorem cons_mem_alternatives {rules : List (Keyword × Rule α)}
    (hnodup : (rules.map Prod.fst).Nodup) {k : TokenKind} {ks : List TokenKind} :
    k :: ks ∈ (rules.map fun r => {[.keyword r.1]} * remainingOfRule r.2).sum ↔
      ∃ c r, k = .keyword c ∧ rules.lookup c = some r ∧ ks ∈ remainingOfRule r := by
  induction rules with
  | nil => simp
  | cons rule rules ih =>
    obtain ⟨c, r⟩ := rule
    rw [List.map_cons, List.nodup_cons] at hnodup
    obtain ⟨hnew, hnodup⟩ := hnodup
    rw [List.map_cons, List.sum_cons, Language.mem_add, cons_mem_token_mul, ih hnodup]
    constructor
    · rintro (⟨rfl, hks⟩ | ⟨d, q, rfl, hlook, hks⟩)
      · exact ⟨c, r, rfl, by simp, hks⟩
      · -- the rule behind is not hidden, since its keyword is another
        have hne : (d == c) = false := by
          rw [beq_eq_false_iff_ne]
          rintro rfl
          obtain ⟨before, after, rfl, -⟩ := List.lookup_eq_some_iff.mp hlook
          exact hnew (by simp)
        exact ⟨d, q, rfl, by rw [List.lookup_cons, hne, hlook], hks⟩
    · rintro ⟨d, q, rfl, hlook, hks⟩
      rw [List.lookup_cons] at hlook
      by_cases hd : d = c
      · subst hd
        simp only [BEq.rfl, Option.some.injEq] at hlook
        exact Or.inl ⟨rfl, hlook ▸ hks⟩
      · have hne : (d == c) = false := by simpa using hd
        rw [hne] at hlook
        exact Or.inr ⟨d, q, rfl, hlook, hks⟩

/-- **One word.** What can follow at a place begins with a word exactly if the word leads to a next
place, at which the rest can follow. -/
theorem cons_mem_remaining {p : Place α} (hp : p.Distinct) (w : Word) (ks : List TokenKind) :
    w.kind :: ks ∈ p.remaining ↔ ∃ q, p.next w = some q ∧ ks ∈ q.remaining := by
  cases p with
  | opening c rules =>
    rw [remaining, cons_mem_alternatives hp]
    constructor
    · rintro ⟨k, r, hk, hlook, hks⟩
      exact ⟨ofRule r, by simp [next, hk, hlook], by rwa [remaining_ofRule]⟩
    · rintro ⟨q, hq, hks⟩
      cases hk : w.kind <;> simp only [next, hk, reduceCtorEq, Option.map_eq_some_iff] at hq
      next k =>
        obtain ⟨r, hlook, rfl⟩ := hq
        exact ⟨k, r, rfl, hlook, by rwa [remaining_ofRule] at hks⟩
  | colon c slot slots fill =>
    rw [remaining, cons_mem_token_mul]
    by_cases hk : w.kind = .colon <;> simp [next, hk, remaining]
  | field c slot slots fill =>
    rw [remaining, cons_mem_token_mul]
    by_cases hk : w.kind = slot.kind
    · simp [next, hk, remaining_ofSlots]
    · simp [next, hk]
  | filled c a =>
    rw [remaining, cons_mem_attrList]
    by_cases hk : w.kind = .lBrace <;> simp [next, hk, remaining]
  | link c join links step => exact cons_mem_remaining_link c join links step w ks
  | list c a es step => exact cons_mem_remaining_list c a es step w ks

-- ============================================================================
-- No word
-- ============================================================================

theorem nil_notMem_alternatives (rules : List (Keyword × Rule α)) :
    [] ∉ (rules.map fun r => {[.keyword r.1]} * remainingOfRule r.2).sum := by
  induction rules with
  | nil => exact Language.notMem_zero []
  | cons rule rules ih =>
    rw [List.map_cons, List.sum_cons, Language.mem_add]
    intro h
    exact h.elim (nil_notMem_token_mul _ _) ih

/-- A line may end at a place exactly if nothing needs to follow. -/
theorem nil_mem_remaining (p : Place α) : [] ∈ p.remaining ↔ p.result?.isSome = true := by
  cases p with
  | opening c rules =>
    rw [remaining]
    simp [nil_notMem_alternatives rules, result?]
  | colon c slot slots fill => simp [remaining, result?]
  | field c slot slots fill => simp [remaining, result?]
  | filled c a => simp [remaining, result?, nil_mem_attrList]
  | link c join links step =>
    cases step with
    | lead => simp [remaining, LinkStep.remaining, result?]
    | process => simp [remaining, LinkStep.remaining, matches_syncConstraint_mul, result?]
    | atSign p => simp [remaining, LinkStep.remaining, result?]
    | event p => simp [remaining, LinkStep.remaining, result?]
    | done l =>
      have hmore := nil_mem_moreLinks
      by_cases hl : l.strength = .strong
      · simpa [remaining, LinkStep.remaining, hl, result?, nil_mem_optional_mul] using hmore
      · simpa [remaining, LinkStep.remaining, hl, result?] using hmore
  | list c a es step =>
    have hmore := nil_notMem_moreEntries
    cases step with
    | opened =>
      simp [remaining, ListStep.remaining, matches_attr_mul, Language.mem_add, result?]
    | key => simp [remaining, ListStep.remaining, matches_attr_mul, result?]
    | colon k => simp [remaining, ListStep.remaining, result?]
    | value k => simp [remaining, ListStep.remaining, result?, nil_mem_optional_mul, hmore]
    | separator k v => simp [remaining, ListStep.remaining, result?, hmore]
    | closed => simp [remaining, ListStep.remaining, result?]

-- ============================================================================
-- Lines
-- ============================================================================

/-- No word leads back to the beginning of a line. -/
theorem ne_opening_of_next {p q : Place α} {w : Word} (h : p.next w = some q) (c : Context)
    (rules : List (Keyword × Rule α)) : q ≠ .opening c rules := by
  rintro rfl
  cases p with
  | opening c rules =>
    cases hk : w.kind <;> simp only [next, hk, reduceCtorEq, Option.map_eq_some_iff] at h
    obtain ⟨r, -, hr⟩ := h
    rcases r with ⟨c, _ | ⟨slot, slots⟩, fill⟩ | ⟨c, join⟩ <;> simp [ofRule, ofSlots] at hr
  | colon c slot slots fill => simp [next] at h
  | field c slot slots fill => cases slots <;> simp [next, ofSlots] at h
  | filled c a => simp [next] at h
  | link c join links step =>
    cases step <;> simp only [next, nextInLink] at h <;> split at h <;> simp_all
  | list c a entries step =>
    cases step with
    | closed => simp [next, nextInList] at h
    | _ =>
      simp only [next, nextInList] at h
      split at h <;> simp_all

theorem distinct_of_next {p q : Place α} {w : Word} (h : p.next w = some q) : q.Distinct := by
  cases q with
  | opening c rules => exact absurd rfl (ne_opening_of_next h c rules)
  | _ => trivial

/-- No line goes on with a token that ends a declaration. -/
theorem next_eq_none (p : Place α) {w : Word}
    (hw : w.kind.endsDeclaration = true) : p.next w = none := by
  cases p with
  | opening c rules => cases hk : w.kind <;> simp_all [next, TokenKind.endsDeclaration]
  | colon c slot slots fill => cases hk : w.kind <;> simp_all [next, TokenKind.endsDeclaration]
  | field c slot slots fill =>
    cases slot <;> cases hk : w.kind <;> simp_all [next, TokenKind.endsDeclaration, Slot.kind]
  | filled c a => cases hk : w.kind <;> simp_all [next, TokenKind.endsDeclaration]
  | link c join links step =>
    cases step <;> cases hk : w.kind <;>
      simp_all [next, nextInLink, TokenKind.endsDeclaration]
  | list c a es step =>
    cases step <;> cases hk : w.kind <;>
      simp_all [next, nextInList, TokenKind.endsDeclaration]

/-- The ends of lines are not part of any. -/
theorem endsDeclaration_of_mem_remaining {p : Place α} (hp : p.Distinct)
    {ks : List TokenKind} (h : ks ∈ p.remaining) : ∀ k ∈ ks, k.endsDeclaration = false := by
  induction ks generalizing p with
  | nil => simp
  | cons k ks ih =>
    obtain ⟨q, hnext, hks⟩ := (cons_mem_remaining hp ⟨k, "", default⟩ ks).mp h
    have hk : k.endsDeclaration = false := by
      rw [← Bool.not_eq_true]
      intro hend
      rw [p.next_eq_none hend] at hnext
      exact absurd hnext (by simp)
    intro j hj
    rcases List.mem_cons.mp hj with rfl | hj
    · exact hk
    · exact ih (distinct_of_next hnext) hks j hj

/-- **Recognition.** The words of a line can be read one after the other, up to a place where the
line may end, exactly if their kinds are in the language of the place where reading began. -/
theorem mem_remaining_iff_read {p : Place α} (hp : p.Distinct) (ws : List Word) :
    ws.map Word.kind ∈ p.remaining ↔
      (p.read ws).rest = [] ∧ (p.read ws).place.result?.isSome = true := by
  induction ws generalizing p with
  | nil => simp [read, nil_mem_remaining]
  | cons w ws ih =>
    rw [List.map_cons, cons_mem_remaining hp, read]
    cases hnext : p.next w with
    | none => simp
    | some q =>
      have hq := distinct_of_next hnext
      simp [ih hq]

end Place

-- ============================================================================
-- Declarations
-- ============================================================================

theorem distinct_header : Header.opening.Distinct := by
  show (Header.rules.map Prod.fst).Nodup
  decide

theorem distinct_declaration : Phrase.opening.Distinct := by
  show (Phrase.rules.map Prod.fst).Nodup
  decide

theorem remaining_header : Header.opening.remaining = Pattern.header.matches' := by
  simp only [Header.opening, Header.rules, Place.remaining, Place.remainingOfRule, Pattern.header,
    Pattern.tokens, Slot.tokens, Slot.kind, List.map_cons, List.map_nil, List.sum_cons,
    List.sum_nil, List.flatMap_cons, List.flatMap_nil, List.cons_append, List.nil_append,
    RegularExpression.matches'_mul, RegularExpression.matches'_char,
    RegularExpression.matches'_epsilon, mul_assoc, add_zero]

theorem remaining_declaration : Phrase.opening.remaining = Pattern.declaration.matches' := by
  simp only [Phrase.opening, Phrase.rules, Place.remaining, Place.remainingOfRule,
    LinkStep.remaining, LinkStep.moreLinks, Pattern.declaration,
    Pattern.tokens, Slot.tokens, Slot.kind, List.map_cons, List.map_nil, List.sum_cons,
    List.sum_nil, List.flatMap_cons, List.flatMap_nil, List.cons_append, List.nil_append,
    RegularExpression.matches'_mul, RegularExpression.matches'_add,
    RegularExpression.matches'_char,
    RegularExpression.matches'_epsilon, mul_assoc, one_mul, add_zero]
  abel

end TimedNet
