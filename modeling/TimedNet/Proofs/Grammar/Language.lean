/-
  TimedNet.Proofs.Grammar.Language

  The grammar as regular expressions over the kinds of tokens, and the language of every place of
  the machine that reads a line: what may still be written there until the line is a declaration.
-/
import Mathlib.Computability.RegularExpressions
import TimedNet.Grammar.Phrase

namespace TimedNet

open RegularExpression (char)
open Computability

-- ============================================================================
-- The grammar
-- ============================================================================

/-- Runs of tokens, by a regular expression over their kinds. -/
abbrev Pattern := RegularExpression TokenKind

namespace Pattern

/-- Tokens of given kinds, one after the other. -/
def tokens : List TokenKind → Pattern
  | [] => 1
  | k :: ks => char k * tokens ks

/-- `(":" p)*` -/
def further (p : Pattern) : Pattern := .star (char .colon * p)

/-- `attr := identifier ":" text?` -/
def attr : Pattern := char .ident * (char .colon * (char .text + 1))

/-- `attr_list := "\x7b" (attr (":" attr)*)? "\x7d" | ε` -/
def attrList : Pattern :=
  char .lBrace * ((attr * further attr + 1) * char .rBrace) + 1

/-- `sync_constraint := identifier "@" identifier "?"?` -/
def syncConstraint : Pattern := tokens [.ident, .atSign, .ident] * (char .question + 1)

/-- `"system" ":" identifier attr_list` -/
def header : Pattern := tokens [.keyword .system, .colon, .ident] * attrList

/-- The seven rules of `declaration`, without the `end_decl` that each ends with. -/
def declaration : Pattern :=
  tokens [.keyword .clock, .colon, .integer, .colon, .ident] * attrList
  + tokens [.keyword .int, .colon, .integer, .colon, .integer, .colon, .integer, .colon, .integer,
      .colon, .ident] * attrList
  + tokens [.keyword .event, .colon, .ident] * attrList
  + tokens [.keyword .process, .colon, .ident] * attrList
  + tokens [.keyword .location, .colon, .ident, .colon, .ident] * attrList
  + tokens [.keyword .edge, .colon, .ident, .colon, .ident, .colon, .ident, .colon, .ident]
      * attrList
  + tokens [.keyword .sync, .colon] * (syncConstraint * further syncConstraint) * attrList

/-- `end_decl := EOL+ | EOF` -/
def endDecl : Pattern := char .endOfLine * .star (char .endOfLine) + char .endOfFile

/-- `system := EOL* "system" ":" identifier attr_list end_decl declaration*` -/
def system : Pattern :=
  .star (char .endOfLine) * (header * endDecl) * .star (declaration * endDecl)

end Pattern

-- ============================================================================
-- Languages
-- ============================================================================

@[simp] theorem cons_mem_token {k j : TokenKind} {ks : List TokenKind} :
    k :: ks ∈ ({[j]} : Language TokenKind) ↔ k = j ∧ ks = [] := by
  rw [← List.cons_eq_cons]
  exact Set.mem_singleton_iff

@[simp] theorem nil_notMem_token (k : TokenKind) : [] ∉ ({[k]} : Language TokenKind) :=
  fun h => absurd (Set.mem_singleton_iff.mp h) (by simp)

@[simp] theorem cons_mem_token_mul {k j : TokenKind} {ks : List TokenKind}
    {l : Language TokenKind} : k :: ks ∈ {[j]} * l ↔ k = j ∧ ks ∈ l := by
  constructor
  · rintro ⟨a, rfl, b, hb, hab⟩
    obtain ⟨rfl, rfl⟩ := List.cons.inj hab
    exact ⟨rfl, hb⟩
  · rintro ⟨rfl, hks⟩
    exact ⟨[k], rfl, ks, hks, rfl⟩

@[simp] theorem nil_notMem_token_mul (k : TokenKind) (l : Language TokenKind) : [] ∉ {[k]} * l := by
  rintro ⟨a, rfl, b, -, hab⟩
  exact absurd hab (by simp)

/-- Further occurrences are none, or a `:`, one more and further ones. -/
theorem matches_further_mul (p : Pattern) (l : Language TokenKind) :
    (Pattern.further p).matches' * l =
      l + {[.colon]} * (p.matches' * ((Pattern.further p).matches' * l)) := by
  have hunroll := Language.one_add_self_mul_kstar_eq_kstar (char TokenKind.colon * p).matches'
  calc (Pattern.further p).matches' * l
      = (1 + (char TokenKind.colon * p).matches' * (Pattern.further p).matches') * l := by
        rw [Pattern.further, RegularExpression.matches'_star, hunroll]
    _ = _ := by rw [add_mul, one_mul, RegularExpression.matches'_mul,
        RegularExpression.matches'_char, mul_assoc, mul_assoc]

-- ============================================================================
-- What remains to be written
-- ============================================================================

namespace Slot

/-- Fields as they are written, each behind a `:`. -/
def tokens (slots : List Slot) : List TokenKind := slots.flatMap fun s => [.colon, s.kind]

end Slot

/-- Behind an attribute: more of them, and the end of the list. -/
def ListStep.moreEntries : Language TokenKind :=
  (Pattern.further Pattern.attr).matches' * {[.rBrace]}

/-- Behind a link: more of them, and an attribute list. -/
def LinkStep.moreLinks : Language TokenKind :=
  (Pattern.further Pattern.syncConstraint).matches' * Pattern.attrList.matches'

def ListStep.remaining : ListStep → Language TokenKind
  | .opened => Pattern.attr.matches' * moreEntries + {[.rBrace]}
  | .key => Pattern.attr.matches' * moreEntries
  | .colon _ => {[.colon]} * (({[.text]} + 1) * moreEntries)
  | .value _ => ({[.text]} + 1) * moreEntries
  | .separator .. => moreEntries
  | .closed => 1

def LinkStep.remaining : LinkStep → Language TokenKind
  | .lead => {[.colon]} * (Pattern.syncConstraint.matches' * moreLinks)
  | .process => Pattern.syncConstraint.matches' * moreLinks
  | .atSign _ =>
    {[.atSign]} * ({[.ident]} * (({[.question]} + 1) * moreLinks))
  | .event _ => {[.ident]} * (({[.question]} + 1) * moreLinks)
  | .done l =>
    if l.strength = .strong then ({[.question]} + 1) * moreLinks else moreLinks

namespace Place

variable {α : Type}

/-- The language of a place behind the keyword. -/
def remainingOfRule : Rule α → Language TokenKind
  | .fields _ slots _ => (Pattern.tokens (Slot.tokens slots) * Pattern.attrList).matches'
  | .links .. => LinkStep.lead.remaining

/-- What may be written from a place on, up to the end of the line. -/
def remaining : Place α → Language TokenKind
  | .opening _ rules =>
    (rules.map fun r => {[.keyword r.1]} * remainingOfRule r.2).sum
  | .colon _ slot slots _ =>
    {[.colon]} * ({[slot.kind]} *
      (Pattern.tokens (Slot.tokens slots) * Pattern.attrList).matches')
  | .field _ slot slots _ =>
    {[slot.kind]} * (Pattern.tokens (Slot.tokens slots) * Pattern.attrList).matches'
  | .filled .. => Pattern.attrList.matches'
  | .link _ _ _ step => step.remaining
  | .list _ _ _ step => step.remaining

theorem remaining_ofSlots (c : Context) (slots : List Slot) (fill : Filling α slots) :
    (ofSlots c slots fill).remaining =
      (Pattern.tokens (Slot.tokens slots) * Pattern.attrList).matches' := by
  cases slots with
  | nil => exact (one_mul _).symm
  | cons slot slots =>
    have htokens : Slot.tokens (slot :: slots) = .colon :: slot.kind :: Slot.tokens slots := rfl
    simp only [ofSlots, remaining, htokens, Pattern.tokens, RegularExpression.matches'_mul,
      RegularExpression.matches'_char, mul_assoc]

theorem remaining_ofRule (r : Rule α) : (ofRule r).remaining = remainingOfRule r := by
  cases r with
  | fields c slots fill => exact remaining_ofSlots c slots fill
  | links c join => rfl

end Place

-- ============================================================================
-- First tokens
-- ============================================================================

theorem matches_attr_mul (l : Language TokenKind) :
    Pattern.attr.matches' * l =
      {[.ident]} * ({[.colon]} * (({[.text]} + 1) * l)) := by
  simp only [Pattern.attr, RegularExpression.matches'_mul, RegularExpression.matches'_add,
    RegularExpression.matches'_char, RegularExpression.matches'_epsilon, mul_assoc]

theorem cons_mem_moreEntries {k : TokenKind} {ks : List TokenKind} :
    k :: ks ∈ ListStep.moreEntries ↔
      (k = .rBrace ∧ ks = []) ∨
        (k = .colon ∧ ks ∈ Pattern.attr.matches' * ListStep.moreEntries) := by
  conv_lhs => rw [ListStep.moreEntries, matches_further_mul]
  rw [Language.mem_add, cons_mem_token, cons_mem_token_mul]
  rfl

theorem cons_mem_attrList {k : TokenKind} {ks : List TokenKind} :
    k :: ks ∈ Pattern.attrList.matches' ↔ k = .lBrace ∧ ks ∈ ListStep.opened.remaining := by
  have hlist : Pattern.attrList.matches' =
      {[.lBrace]} * ListStep.opened.remaining + 1 := by
    simp only [Pattern.attrList, RegularExpression.matches'_add, RegularExpression.matches'_mul,
      RegularExpression.matches'_char, RegularExpression.matches'_epsilon, ListStep.remaining,
      ListStep.moreEntries, add_mul, one_mul, mul_assoc]
  rw [hlist, Language.mem_add, cons_mem_token_mul]
  simp

theorem cons_mem_moreLinks {k : TokenKind} {ks : List TokenKind} :
    k :: ks ∈ LinkStep.moreLinks ↔
      (k = .lBrace ∧ ks ∈ ListStep.opened.remaining) ∨
        (k = .colon ∧ ks ∈ LinkStep.process.remaining) := by
  conv_lhs => rw [LinkStep.moreLinks, matches_further_mul]
  rw [Language.mem_add, cons_mem_attrList, cons_mem_token_mul]
  rfl

theorem matches_syncConstraint_mul (l : Language TokenKind) :
    Pattern.syncConstraint.matches' * l =
      {[.ident]} * ({[.atSign]} * ({[.ident]} * (({[.question]} + 1) * l))) := by
  simp only [Pattern.syncConstraint, Pattern.tokens, RegularExpression.matches'_mul,
    RegularExpression.matches'_add, RegularExpression.matches'_char,
    RegularExpression.matches'_epsilon, mul_assoc, one_mul]

-- ============================================================================
-- The empty run
-- ============================================================================

theorem nil_mem_attrList : [] ∈ Pattern.attrList.matches' := Or.inr rfl

theorem nil_mem_moreLinks : [] ∈ LinkStep.moreLinks := by
  rw [LinkStep.moreLinks, matches_further_mul]
  exact Or.inl nil_mem_attrList

theorem nil_notMem_moreEntries : [] ∉ ListStep.moreEntries := by
  rw [ListStep.moreEntries, matches_further_mul, Language.mem_add]
  rintro (h | h)
  · exact nil_notMem_token _ h
  · exact nil_notMem_token_mul _ _ h

theorem nil_mem_optional_mul (k : TokenKind) (l : Language TokenKind) :
    [] ∈ ({[k]} + 1) * l ↔ [] ∈ l := by
  rw [add_mul, one_mul, Language.mem_add]
  exact or_iff_right (nil_notMem_token_mul k l)

end TimedNet
