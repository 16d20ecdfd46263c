/-
  TimedNet.Proofs.Session.Lockstep

  Two sessions side by side. `Lockstep V Q N R` collects what a relation `R` between sessions has to
  keep in single steps: related sessions have words before them that are related by `V`, the
  declaration of the network leaves them related, and so does a turn of the loop, which enters one
  declaration into each of two stores that are related by `Q`. Then a whole reading leaves them
  related and gives out networks that are related by `N` (`Lockstep.read`).
-/
import Mathlib.Data.List.Forall2
import TimedNet.Proofs.Session.Verdict

namespace TimedNet

theorem rel_eq_iff {α : Type} {a b : Option α} : Option.Rel Eq a b ↔ a = b := by
  constructor
  · rintro (h | _)
    · exact congrArg some h
    · rfl
  · rintro rfl
    cases a with
    | none => exact .none
    | some a => exact .some rfl

/-- Words that correspond still do so behind the ends of lines. -/
theorem forall₂_skipLineEnds {V : Word → Word → Prop} (hkind : ∀ v w, V v w → v.kind = w.kind)
    {ws vs : List Word} (h : List.Forall₂ V ws vs) :
    List.Forall₂ V (skipLineEnds ws) (skipLineEnds vs) := by
  induction h with
  | nil => exact .nil
  | @cons w v ws vs hwv hrest ih =>
    have hends : w.isLineEnd = v.isLineEnd := by rw [Word.isLineEnd, Word.isLineEnd, hkind w v hwv]
    cases hw : w.isLineEnd with
    | true =>
      rw [skipLineEnds, List.dropWhile_cons_of_pos hw, skipLineEnds,
        List.dropWhile_cons_of_pos (hends ▸ hw)]
      exact ih
    | false =>
      rw [skipLineEnds, List.dropWhile_cons_of_neg (by simp [hw]), skipLineEnds,
        List.dropWhile_cons_of_neg (by simp [← hends, hw])]
      exact .cons hwv hrest

namespace Session

/-- The session behind a declaration that was entered. -/
def pass (s : Session) (entry : Entry) : Session := (s.say entry.diagnostics).goTo entry.rest

/-- Enters the declaration that words begin with the way a session does. -/
def enter (s : Session) (store : Store) (ws : List Word) : Entry :=
  store.enter s.options.boundsCheck s.close ws

/-- What a relation between sessions has to keep for them to go in lockstep. -/
structure Lockstep (V : Word → Word → Prop) (Q : Store → Store → Prop) (N : System → System → Prop)
    (R : Session → Session → Prop) : Prop where
  kind : ∀ v w, V v w → v.kind = w.kind
  words : ∀ s t, R s t → List.Forall₂ V s.words t.words
  goTo : ∀ s t, R s t → ∀ ws vs, List.Forall₂ V ws vs → R (s.goTo ws) (t.goTo vs)
  keep : ∀ s t, R s t → ∀ m n, Option.Rel N m n → R (s.keep m) (t.keep n)
  isOverLimit : ∀ s t, R s t → s.isOverLimit = t.isOverLimit
  abort : ∀ s t, R s t → R s.abort t.abort
  readHeader : ∀ s t, R s t →
    Option.Rel N s.readHeader.1 t.readHeader.1 ∧ R s.readHeader.2 t.readHeader.2
  empty : Q .empty .empty
  turn : ∀ s t, R s t → ∀ a b, Q a b → ∀ ws vs, List.Forall₂ V ws vs →
    Q (s.enter a ws).store (t.enter b vs).store ∧ R (s.pass (s.enter a ws)) (t.pass (t.enter b vs))
  filled : ∀ m n, N m n → ∀ a b, Q a b → N { m with store := a } { n with store := b }
  verdict : ∀ s t, R s t → s.isFatal = t.isFatal ∧ s.errorCount = t.errorCount
  network : ∀ s t, R s t → Option.Rel N s.network t.network

namespace Lockstep

variable {V : Word → Word → Prop} {Q : Store → Store → Prop} {N : System → System → Prop}
  {R : Session → Session → Prop}

/-- When one of the sessions has nothing left to read, so has the other. -/
theorem skip_nil (h : Lockstep V Q N R) {s t : Session} (hst : R s t)
    (hs : skipLineEnds s.words = []) : skipLineEnds t.words = [] := by
  have hskip := forall₂_skipLineEnds h.kind (h.words s t hst)
  rwa [hs, List.forall₂_nil_left_iff] at hskip

/-- When one of the sessions has a word before it, the other has one of the same kind. -/
theorem skip_cons (h : Lockstep V Q N R) {s t : Session} (hst : R s t) {w : Word} {ws : List Word}
    (hs : skipLineEnds s.words = w :: ws) :
    ∃ v vs, skipLineEnds t.words = v :: vs ∧ w.kind = v.kind ∧
      List.Forall₂ V (w :: ws) (v :: vs) := by
  have hskip := forall₂_skipLineEnds h.kind (h.words s t hst)
  rw [hs, List.forall₂_cons_left_iff] at hskip
  obtain ⟨v, vs, hwv, hrest, ht⟩ := hskip
  exact ⟨v, vs, ht, h.kind w v hwv, .cons hwv hrest⟩

/-- The loop over the declarations, by the recursion on the words that are left to the first. -/
theorem readDeclarations (h : Lockstep V Q N R) (s : Session) (a : Store) :
    ∀ t b, R s t → Q a b →
      Q (s.readDeclarations a).1 (t.readDeclarations b).1 ∧
        R (s.readDeclarations a).2 (t.readDeclarations b).2 := by
  induction s, a using readDeclarations.induct with
  | case1 s a hs =>
    intro t b hst hab
    rw [readDeclarations_of_nil a hs, readDeclarations_of_nil b (h.skip_nil hst hs)]
    exact ⟨hab, h.goTo s t hst [] [] .nil⟩
  | case2 s a w ws hs hw =>
    intro t b hst hab
    obtain ⟨v, vs, ht, hkind, hwords⟩ := h.skip_cons hst hs
    rw [readDeclarations_of_cons a hs, readDeclarations_of_cons b ht, if_pos hw,
      if_pos (hkind ▸ hw)]
    exact ⟨hab, h.goTo s t hst _ _ hwords⟩
  | case3 s a w ws hs hw entry next hover =>
    intro t b hst hab
    obtain ⟨v, vs, ht, hkind, hwords⟩ := h.skip_cons hst hs
    obtain ⟨hstore, hnext⟩ := h.turn s t hst a b hab _ _ hwords
    have hover' : (t.pass (t.enter b (v :: vs))).isOverLimit = true :=
      (h.isOverLimit _ _ hnext).symm.trans hover
    rw [readDeclarations_of_over hs hw rfl rfl hover,
      readDeclarations_of_over ht (hkind ▸ hw) rfl rfl hover']
    exact ⟨hstore, h.abort _ _ hnext⟩
  | case4 s a w ws hs hw entry next hover ih =>
    intro t b hst hab
    obtain ⟨v, vs, ht, hkind, hwords⟩ := h.skip_cons hst hs
    obtain ⟨hstore, hnext⟩ := h.turn s t hst a b hab _ _ hwords
    have hover' : ¬ (t.pass (t.enter b (v :: vs))).isOverLimit = true :=
      fun hover' => hover ((h.isOverLimit _ _ hnext).trans hover')
    rw [readDeclarations_of_not_over hs hw rfl rfl hover,
      readDeclarations_of_not_over ht (hkind ▸ hw) rfl rfl hover']
    exact ih _ _ hnext hstore

theorem build (h : Lockstep V Q N R) {s t : Session} (hst : R s t) : R s.build t.build := by
  obtain ⟨hnetwork, hrest⟩ := h.readHeader s t hst
  rcases hs : s.readHeader with ⟨m, s'⟩
  rcases ht : t.readHeader with ⟨n, t'⟩
  rw [hs, ht] at hnetwork hrest
  cases hnetwork with
  | none => rwa [build_of_none hs, build_of_none ht]
  | some hmn =>
    obtain ⟨hstore, hsession⟩ := h.readDeclarations _ _ _ _ hrest h.empty
    rw [build_of_some hs, build_of_some ht]
    exact h.keep _ _ hsession _ _ (.some (h.filled _ _ hmn _ _ hstore))

/-- **One reading.** Sessions in lockstep give out networks that go together, and stay in
lockstep. -/
theorem read (h : Lockstep V Q N R) {s t : Session} (hst : R s t) :
    Option.Rel N s.read.1 t.read.1 ∧ R s.read.2 t.read.2 := by
  have hbuild := h.build hst
  obtain ⟨hfatal, herrors⟩ := h.verdict _ _ hbuild
  by_cases hgood : s.build.isFatal = false ∧ s.build.errorCount = 0
  · rw [read_of_good hgood.1 hgood.2,
      read_of_good (hfatal.symm.trans hgood.1) (herrors.symm.trans hgood.2)]
    exact ⟨h.network _ _ hbuild, h.keep _ _ hbuild _ _ .none⟩
  · have hbad : s.build.isFatal = true ∨ s.build.errorCount ≠ 0 := by
      rwa [← Bool.not_eq_false, ← not_and_or]
    rw [read_of_bad hbad, read_of_bad (by rwa [← hfatal, ← herrors])]
    exact ⟨.none, hbuild⟩

/-- Any number of readings. -/
theorem iterate_read (h : Lockstep V Q N R) {s t : Session} (hst : R s t) (calls : Nat) :
    R ((fun t : Session => t.read.2)^[calls] s) ((fun t : Session => t.read.2)^[calls] t) := by
  induction calls with
  | zero => exact hst
  | succ calls ih =>
    rw [Function.iterate_succ_apply', Function.iterate_succ_apply']
    exact (h.read ih).2

end Lockstep

end Session

end TimedNet
