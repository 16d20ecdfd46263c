/-
  TimedNet.Proofs.Grammar.Lines

  Tokens cut into lines, and the grammar of a whole text: a text is in the language of the grammar
  exactly if its first line declares the network and every other one is a declaration
  (`mem_system_iff`). Blank lines do not count, and the last line may be ended by the end of the
  text.
-/
import Mathlib.Data.List.TakeWhile
import TimedNet.Proofs.Grammar.Recognition

namespace TimedNet

open RegularExpression (char)
open Computability

-- ============================================================================
-- Cutting a list at the ends of its lines
-- ============================================================================

/-- What stands between the elements that are ends, as far as there is something. -/
def cut {α : Type} (isEnd : α → Bool) (xs : List α) : List (List α) :=
  (xs.splitOnP isEnd).filter fun line => !line.isEmpty

section Cut

variable {α β : Type} {isEnd : α → Bool}

@[simp] theorem cut_nil : cut isEnd [] = [] := rfl

@[simp] theorem cut_end {x : α} (hx : isEnd x = true) (xs : List α) :
    cut isEnd (x :: xs) = cut isEnd xs := by
  simp [cut, List.splitOnP_cons_eq_if_modifyHead, hx]

/-- Nothing is cut where there is no end. -/
theorem splitOnP_of_forall {xs : List α} (h : ∀ x ∈ xs, isEnd x = false) :
    xs.splitOnP isEnd = [xs] := by
  induction xs with
  | nil => rfl
  | cons x xs ih =>
    have hx := h x List.mem_cons_self
    have hxs := ih fun y hy => h y (List.mem_cons_of_mem x hy)
    simp [List.splitOnP_cons_eq_if_modifyHead, hx, hxs]

/-- A line is cut off at its end. -/
theorem splitOnP_line {line : List α} (h : ∀ x ∈ line, isEnd x = false) {e : α}
    (he : isEnd e = true) (rest : List α) :
    (line ++ e :: rest).splitOnP isEnd = line :: rest.splitOnP isEnd := by
  induction line with
  | nil => simp [List.splitOnP_cons_eq_if_modifyHead, he]
  | cons x line ih =>
    have hx := h x List.mem_cons_self
    have hline := ih fun y hy => h y (List.mem_cons_of_mem x hy)
    simp [List.splitOnP_cons_eq_if_modifyHead, hx, hline]

theorem cut_last {line : List α} (hne : line ≠ []) (h : ∀ x ∈ line, isEnd x = false) :
    cut isEnd line = [line] := by
  simp [cut, splitOnP_of_forall h, hne]

theorem cut_line {line : List α} (hne : line ≠ []) (h : ∀ x ∈ line, isEnd x = false) {e : α}
    (he : isEnd e = true) (rest : List α) :
    cut isEnd (line ++ e :: rest) = line :: cut isEnd rest := by
  simp [cut, splitOnP_line h he, hne]

/-- A list is empty, or begins with an end, or is one line, or has a line before an end. -/
theorem cut_induction (isEnd : α → Bool) {motive : List α → Prop} (nil : motive [])
    (skip : ∀ x xs, isEnd x = true → motive xs → motive (x :: xs))
    (last : ∀ line, line ≠ [] → (∀ x ∈ line, isEnd x = false) → motive line)
    (line : ∀ line e rest, line ≠ [] → (∀ x ∈ line, isEnd x = false) → isEnd e = true →
      motive rest → motive (line ++ e :: rest)) (xs : List α) : motive xs := by
  induction hn : xs.length using Nat.strongRecOn generalizing xs with
  | ind n ih =>
    have hsplit := List.takeWhile_append_dropWhile (p := fun x => !isEnd x) (l := xs)
    have hfree : ∀ x ∈ xs.takeWhile fun x => !isEnd x, isEnd x = false := fun x hx => by
      simpa using List.mem_takeWhile_imp hx
    cases hrest : xs.dropWhile fun x => !isEnd x with
    | nil =>
      rw [hrest, List.append_nil] at hsplit
      by_cases hne : xs = []
      · exact hne ▸ nil
      · exact last xs hne (hsplit ▸ hfree)
    | cons e rest =>
      have he : isEnd e = true := by
        simpa [hrest] using List.head?_dropWhile_not (fun x => !isEnd x) xs
      have hlen := congrArg List.length hsplit
      rw [hrest, List.length_append, List.length_cons] at hlen
      have htail : motive rest := ih rest.length (by omega) rest rfl
      rw [hrest] at hsplit
      by_cases hne : (xs.takeWhile fun x => !isEnd x) = []
      · rw [hne, List.nil_append] at hsplit
        exact hsplit ▸ skip e rest he htail
      · exact hsplit ▸ line _ e rest hne hfree he htail

theorem cut_ends {es : List α} (hes : ∀ e ∈ es, isEnd e = true) (xs : List α) :
    cut isEnd (es ++ xs) = cut isEnd xs := by
  induction es with
  | nil => rfl
  | cons e es ih =>
    rw [List.cons_append, cut_end (hes e List.mem_cons_self),
      ih fun x hx => hes x (List.mem_cons_of_mem e hx)]

theorem cut_concat_end {xs : List α} {e : α} (he : isEnd e = true) :
    cut isEnd (xs ++ [e]) = cut isEnd xs := by
  induction xs using cut_induction isEnd with
  | nil => simp [he]
  | skip x xs hx ih => rw [List.cons_append, cut_end hx, cut_end hx, ih]
  | last line hne h => rw [cut_line hne h he, cut_last hne h, cut_nil]
  | line line x rest hne h hx ih =>
    rw [List.append_assoc, List.cons_append, cut_line hne h hx, cut_line hne h hx, ih]

theorem cut_congr {isEnd' : α → Bool} {xs : List α} (h : ∀ x ∈ xs, isEnd x = isEnd' x) :
    cut isEnd xs = cut isEnd' xs := by
  have hsplit : xs.splitOnP isEnd = xs.splitOnP isEnd' := by
    induction xs with
    | nil => rfl
    | cons x xs ih =>
      rw [List.splitOnP_cons_eq_if_modifyHead, List.splitOnP_cons_eq_if_modifyHead,
        h x List.mem_cons_self, ih fun y hy => h y (List.mem_cons_of_mem x hy)]
  rw [cut, cut, hsplit]

theorem cut_map (f : α → β) (isEnd : β → Bool) (xs : List α) :
    cut isEnd (xs.map f) = (cut (fun x => isEnd (f x)) xs).map (List.map f) := by
  induction xs using cut_induction fun x => isEnd (f x) with
  | nil => rfl
  | skip x xs hx ih =>
    have hfx : isEnd (f x) = true := hx
    rw [List.map_cons, cut_end hfx, ih, @cut_end α (fun x => isEnd (f x)) x hx xs]
  | last line hne h =>
    rw [cut_last hne h, cut_last (by simpa using hne) (by simpa using h), List.map_singleton]
  | line line e rest hne h he ih =>
    rw [List.map_append, List.map_cons, cut_line (by simpa using hne) (by simpa using h) he,
      cut_line hne h he, List.map_cons, ih]

end Cut

/-- The end of a line, as opposed to the end of the text. -/
def TokenKind.isLineEnd (k : TokenKind) : Bool := k == .endOfLine

-- ============================================================================
-- Lines of a declaration
-- ============================================================================

/-- A nonempty run of tokens that goes on over no end. -/
def IsLine (ks : List TokenKind) : Prop := ks ≠ [] ∧ ∀ k ∈ ks, k.endsDeclaration = false

theorem isLine_of_mem_header {ks : List TokenKind} (h : ks ∈ Pattern.header.matches') :
    IsLine ks := by
  rw [← remaining_header] at h
  refine ⟨?_, Place.endsDeclaration_of_mem_remaining distinct_header h⟩
  rintro rfl
  exact absurd ((Place.nil_mem_remaining _).mp h) (by decide)

theorem isLine_of_mem_declaration {ks : List TokenKind}
    (h : ks ∈ Pattern.declaration.matches') : IsLine ks := by
  rw [← remaining_declaration] at h
  refine ⟨?_, Place.endsDeclaration_of_mem_remaining distinct_declaration h⟩
  rintro rfl
  exact absurd ((Place.nil_mem_remaining _).mp h) (by decide)

-- ============================================================================
-- Ends of lines in the grammar
-- ============================================================================

theorem mem_star_endOfLine_iff {ks : List TokenKind} :
    ks ∈ (RegularExpression.star (char TokenKind.endOfLine)).matches' ↔
      ∀ k ∈ ks, k = .endOfLine := by
  rw [RegularExpression.matches'_star, Language.mem_kstar]
  constructor
  · rintro ⟨runs, rfl, hruns⟩ k hk
    obtain ⟨run, hrun, hk⟩ := List.mem_flatten.mp hk
    rw [Set.mem_singleton_iff.mp (hruns run hrun)] at hk
    exact List.mem_singleton.mp hk
  · intro hks
    refine ⟨ks.map fun k => [k], ?_, ?_⟩
    · rw [← List.flatMap_def, List.flatMap_singleton']
    · intro run hrun
      obtain ⟨k, hk, rfl⟩ := List.mem_map.mp hrun
      rw [hks k hk]
      rfl

theorem endDecl_of_endOfLine {ks : List TokenKind} (hks : ∀ k ∈ ks, k = .endOfLine) :
    .endOfLine :: ks ∈ Pattern.endDecl.matches' :=
  Or.inl (cons_mem_token_mul.mpr ⟨rfl, mem_star_endOfLine_iff.mpr hks⟩)

theorem endDecl_endOfFile : [.endOfFile] ∈ Pattern.endDecl.matches' := Or.inr rfl

/-- What ends a declaration is not empty and consists of ends. -/
theorem ends_of_mem_endDecl {ks : List TokenKind} (h : ks ∈ Pattern.endDecl.matches') :
    ∃ e es, ks = e :: es ∧ e.endsDeclaration = true ∧ ∀ k ∈ es, k.endsDeclaration = true := by
  rcases h with ⟨run, rfl, es, hes, rfl⟩ | hfile
  · refine ⟨.endOfLine, es, rfl, rfl, fun k hk => ?_⟩
    rw [mem_star_endOfLine_iff.mp hes k hk]
    rfl
  · rw [Set.mem_singleton_iff.mp hfile]
    exact ⟨.endOfFile, [], rfl, rfl, by simp⟩

/-- A line and its end are cut off together. -/
theorem cut_mul_endDecl {line ends : List TokenKind} (hline : IsLine line)
    (hends : ends ∈ Pattern.endDecl.matches') (rest : List TokenKind) :
    cut TokenKind.endsDeclaration (line ++ ends ++ rest) =
      line :: cut TokenKind.endsDeclaration rest := by
  obtain ⟨e, es, rfl, he, hes⟩ := ends_of_mem_endDecl hends
  rw [List.append_assoc, List.cons_append, cut_line hline.1 hline.2 he, cut_ends hes]

-- ============================================================================
-- Texts
-- ============================================================================

/-- A sequence of declarations is cut into declarations. -/
theorem cut_of_mem_declarations {ks : List TokenKind}
    (h : ks ∈ (RegularExpression.star (Pattern.declaration * Pattern.endDecl)).matches') :
    ∀ line ∈ cut TokenKind.endsDeclaration ks, line ∈ Pattern.declaration.matches' := by
  obtain ⟨runs, rfl, hruns⟩ := h
  induction runs with
  | nil => simp
  | cons run runs ih =>
    obtain ⟨line, hline, ends, hends, rfl⟩ := hruns run List.mem_cons_self
    have htail := ih fun r hr => hruns r (List.mem_cons_of_mem _ hr)
    rw [List.flatten_cons, cut_mul_endDecl (isLine_of_mem_declaration hline) hends]
    intro l hl
    rcases List.mem_cons.mp hl with rfl | hl
    · exact hline
    · exact htail l hl

/-- A text of the grammar is cut into the declaration of the network and others. -/
theorem cut_of_mem_system {ks : List TokenKind} (h : ks ∈ Pattern.system.matches') :
    ∃ first others, cut TokenKind.endsDeclaration ks = first :: others ∧
      first ∈ Pattern.header.matches' ∧ ∀ line ∈ others, line ∈ Pattern.declaration.matches' := by
  obtain ⟨front, ⟨blank, hblank, head, ⟨first, hfirst, ends, hends, rfl⟩, rfl⟩, tail, htail, rfl⟩ := h
  refine ⟨first, cut TokenKind.endsDeclaration tail, ?_, hfirst, cut_of_mem_declarations htail⟩
  have hends' : ∀ k ∈ blank, k.endsDeclaration = true := fun k hk => by
    rw [mem_star_endOfLine_iff.mp hblank k hk]
    rfl
  show cut _ ((blank ++ (first ++ ends)) ++ tail) = _
  rw [List.append_assoc, cut_ends hends', cut_mul_endDecl (isLine_of_mem_header hfirst) hends]

/-- Declarations, each with its end; the end of the text may still have to come. -/
def IsTail (ks : List TokenKind) : Prop :=
  ∃ ends ∈ [[], [TokenKind.endOfFile]],
    ks ++ ends ∈ (RegularExpression.star (Pattern.declaration * Pattern.endDecl)).matches'

theorem isTail_cons {line ends tail : List TokenKind} (hline : line ∈ Pattern.declaration.matches')
    (hends : ends ∈ Pattern.endDecl.matches') (htail : IsTail tail) :
    IsTail (line ++ ends ++ tail) := by
  obtain ⟨close, hclose, runs, hruns, hall⟩ := htail
  refine ⟨close, hclose, (line ++ ends) :: runs, ?_, ?_⟩
  · rw [List.flatten_cons, ← hruns, List.append_assoc]
  · rintro run (_ | ⟨_, hrun⟩)
    · exact Language.append_mem_mul hline hends
    · exact hall run hrun

/-- Lines that are declarations make up the rest of a text, behind blank lines. -/
theorem isTail_of_cut {ks : List TokenKind}
    (h : ∀ line ∈ cut TokenKind.isLineEnd ks, line ∈ Pattern.declaration.matches') :
    ∃ blank tail, ks = blank ++ tail ∧ (∀ k ∈ blank, k = .endOfLine) ∧ IsTail tail := by
  induction ks using cut_induction TokenKind.isLineEnd with
  | nil => exact ⟨[], [], rfl, by simp, [], by simp, Language.nil_mem_kstar _⟩
  | skip k ks hk ih =>
    rw [cut_end hk] at h
    obtain ⟨blank, tail, rfl, hblank, htail⟩ := ih h
    refine ⟨k :: blank, tail, rfl, ?_, htail⟩
    rintro j (_ | ⟨_, hj⟩)
    · exact beq_iff_eq.mp hk
    · exact hblank j hj
  | last line hne hfree =>
    rw [cut_last hne hfree] at h
    have hline := h line List.mem_cons_self
    refine ⟨[], line, rfl, by simp, [.endOfFile], by simp, [line ++ [.endOfFile]], by simp, ?_⟩
    rintro run hrun
    rw [List.mem_singleton.mp hrun]
    exact Language.append_mem_mul hline endDecl_endOfFile
  | line line e rest hne hfree he ih =>
    rw [cut_line hne hfree he] at h
    obtain ⟨blank, tail, rfl, hblank, htail⟩ := ih fun l hl => h l (List.mem_cons_of_mem _ hl)
    have hline := h line List.mem_cons_self
    refine ⟨[], line ++ e :: (blank ++ tail), rfl, by simp, ?_⟩
    rw [beq_iff_eq.mp he, ← List.cons_append, ← List.append_assoc]
    exact isTail_cons hline (endDecl_of_endOfLine hblank) htail

theorem mem_system {blank first ends tail : List TokenKind} (hblank : ∀ k ∈ blank, k = .endOfLine)
    (hfirst : first ∈ Pattern.header.matches') (hends : ends ∈ Pattern.endDecl.matches')
    (htail : tail ∈ (RegularExpression.star (Pattern.declaration * Pattern.endDecl)).matches') :
    blank ++ (first ++ ends) ++ tail ∈ Pattern.system.matches' := by
  refine Language.append_mem_mul (Language.append_mem_mul ?_ ?_) htail
  · exact mem_star_endOfLine_iff.mpr hblank
  · exact Language.append_mem_mul hfirst hends

/-- A blank line may be put in front of a text. -/
theorem cons_mem_system {k : TokenKind} (hk : k.isLineEnd = true) {ks : List TokenKind}
    (h : ks ∈ Pattern.system.matches') : k :: ks ∈ Pattern.system.matches' := by
  obtain ⟨front, ⟨blank, hblank, head, ⟨first, hfirst, ends, hends, rfl⟩, rfl⟩, tail, htail, rfl⟩ := h
  have hmore : ∀ j ∈ k :: blank, j = .endOfLine := by
    rintro j (_ | ⟨_, hj⟩)
    · exact beq_iff_eq.mp hk
    · exact mem_star_endOfLine_iff.mp hblank j hj
  exact mem_system hmore hfirst hends htail

/-- A text whose lines are as the grammar has them is a text of the grammar. -/
theorem mem_system_of_cut {ks first : List TokenKind} {others : List (List TokenKind)}
    (hcut : cut TokenKind.isLineEnd ks = first :: others) (hfirst : first ∈ Pattern.header.matches')
    (hothers : ∀ line ∈ others, line ∈ Pattern.declaration.matches') :
    ks ∈ Pattern.system.matches' ∨ ks ++ [.endOfFile] ∈ Pattern.system.matches' := by
  induction ks using cut_induction TokenKind.isLineEnd with
  | nil => exact absurd hcut (by simp)
  | skip k ks hk ih =>
    rw [cut_end hk] at hcut
    exact (ih hcut).imp (cons_mem_system hk) (cons_mem_system hk)
  | last line hne hfree =>
    rw [cut_last hne hfree] at hcut
    obtain ⟨rfl, -⟩ := List.cons.inj hcut
    have hnone := Language.nil_mem_kstar (Pattern.declaration * Pattern.endDecl).matches'
    have hmem : [] ++ (line ++ [.endOfFile]) ++ [] ∈ Pattern.system.matches' :=
      mem_system (by simp) hfirst endDecl_endOfFile hnone
    rw [List.nil_append, List.append_nil] at hmem
    exact Or.inr hmem
  | line line e rest hne hfree he ih =>
    rw [cut_line hne hfree he] at hcut
    obtain ⟨rfl, rfl⟩ := List.cons.inj hcut
    obtain ⟨blank, tail, rfl, hblank, ends, hends, htail⟩ := isTail_of_cut hothers
    have hmem : [] ++ (line ++ .endOfLine :: blank) ++ (tail ++ ends) ∈ Pattern.system.matches' :=
      mem_system (by simp) hfirst (endDecl_of_endOfLine hblank) htail
    have hsplit : line ++ e :: (blank ++ tail) ++ ends =
        [] ++ (line ++ .endOfLine :: blank) ++ (tail ++ ends) := by
      simp [beq_iff_eq.mp he]
    rw [← hsplit] at hmem
    rcases List.mem_cons.mp hends with rfl | hends
    · exact Or.inl (by rwa [List.append_nil] at hmem)
    · rw [List.mem_singleton.mp hends] at hmem
      exact Or.inr hmem

/-- **The grammar, line by line.** Tokens, followed by the end of the text or not, are a text of the
grammar exactly if their first line that is not blank declares the network and every other one is a
declaration. -/
theorem mem_system_iff {ks : List TokenKind} (hks : ∀ k ∈ ks, k ≠ .endOfFile) :
    (ks ∈ Pattern.system.matches' ∨ ks ++ [.endOfFile] ∈ Pattern.system.matches') ↔
      ∃ first others, cut TokenKind.isLineEnd ks = first :: others ∧
        first ∈ Pattern.header.matches' ∧
          ∀ line ∈ others, line ∈ Pattern.declaration.matches' := by
  have hcut : cut TokenKind.endsDeclaration ks = cut TokenKind.isLineEnd ks := by
    refine cut_congr fun k hk => ?_
    have hfile := hks k hk
    cases k <;> first | rfl | exact absurd rfl hfile
  constructor
  · rintro (h | h)
    · rw [← hcut]
      exact cut_of_mem_system h
    · have hclose : TokenKind.endOfFile.endsDeclaration = true := rfl
      rw [← hcut, ← cut_concat_end hclose]
      exact cut_of_mem_system h
  · rintro ⟨first, others, hlines, hfirst, hothers⟩
    exact mem_system_of_cut hlines hfirst hothers

end TimedNet
