/-
  TimedNet.Grammar.Reading

  Reading words: how far they make sense as a declaration, what they make up, and what is wrong with
  the first one that does not fit. Reading goes on behind the end of a line that was read, and at the
  end of one that was not.
-/
import TimedNet.Diagnostic.Problem
import TimedNet.Grammar.Place

namespace TimedNet

/-! ## Reading words -/

/-- A part of a line that can be checked as soon as it has been read, whatever follows. -/
inductive Part where
  | size (literal : Lexeme)
  | bound (literal : Lexeme)
  | link (process event : Lexeme)
deriving DecidableEq

/-- How far words were read: the words that were read, the parts that they completed, the place that
was reached, and the words that are left. -/
structure Reading (α : Type) where
  words : List Word
  parts : List Part
  place : Place α
  rest : List Word

namespace Place

variable {α : Type}

/-- The part that a word completes at a place where it may come next. -/
def part? : Place α → Word → Option Part
  | .field _ .size _ _, w => some (.size w.lexeme)
  | .field _ .bound _ _, w => some (.bound w.lexeme)
  | .link _ _ _ (.event p), w => some (.link p w.lexeme)
  | _, _ => none

/-- Reads words from a place on, as far as each may come next. -/
def read (p : Place α) : List Word → Reading α
  | [] => ⟨[], [], p, []⟩
  | w :: ws =>
    match p.next w with
    | none => ⟨[], [], p, w :: ws⟩
    | some q =>
      let r := read q ws
      ⟨w :: r.words, (p.part? w).toList ++ r.parts, r.place, r.rest⟩

theorem read_cons_of_none {p : Place α} {w : Word} (h : p.next w = none) (ws : List Word) :
    p.read (w :: ws) = ⟨[], [], p, w :: ws⟩ := by
  rw [read, h]

theorem read_cons_of_some {p q : Place α} {w : Word} (h : p.next w = some q) (ws : List Word) :
    p.read (w :: ws) =
      ⟨w :: (q.read ws).words, (p.part? w).toList ++ (q.read ws).parts, (q.read ws).place,
        (q.read ws).rest⟩ := by
  rw [read, h]

/-- No word is lost: those that are read come first, those that are left follow. -/
theorem read_words_append_rest (p : Place α) (ws : List Word) :
    (p.read ws).words ++ (p.read ws).rest = ws := by
  induction ws generalizing p with
  | nil => rfl
  | cons w ws ih =>
    cases hnext : p.next w with
    | none => rw [read_cons_of_none hnext, List.nil_append]
    | some q => rw [read_cons_of_some hnext, List.cons_append, ih]

end Place

/-! ## Faults -/

/-- A word that no declaration goes on with. -/
structure Fault where
  context : Context
  found : Word
  expected : List TokenKind

namespace Fault

/-- Where a fault is shown. An end of line is shown where it starts, not on the line below. -/
def span (f : Fault) : Span :=
  if f.found.kind = .endOfLine then .point f.found.span.start else f.found.span

/-- The error that reports a fault. -/
def diagnostic (f : Fault) : Diagnostic :=
  { (Problem.unexpected f.found.kind f.found.text f.expected).diagnostic f.span with
    hint := some f.context.hint }

end Fault

/-- The words from the first one on at which reading resumes after a fault in a context. -/
def Context.resume (c : Context) (ws : List Word) : List Word :=
  ws.dropWhile fun w => !c.resumesAt w.kind

theorem Context.length_resume_le (c : Context) (ws : List Word) :
    (c.resume ws).length ≤ ws.length :=
  (List.dropWhile_sublist _).length_le

namespace Reading

variable {α : Type}

/-- The first word that was not read; `close` stands behind all words. -/
def stop (r : Reading α) (close : Word) : Word := r.rest.headD close

/-- What was read if the line or the text ends here and a declaration may; otherwise what is wrong. -/
def outcome (r : Reading α) (close : Word) : Except Fault (α × Attributes) :=
  match (r.stop close).kind.endsDeclaration, r.place.result? with
  | true, some result => .ok result
  | _, _ => .error ⟨r.place.context, r.stop close, r.place.expected⟩

theorem outcome_eq_ok_iff {r : Reading α} {close : Word} {result : α × Attributes} :
    r.outcome close = .ok result ↔
      (r.stop close).kind.endsDeclaration = true ∧ r.place.result? = some result := by
  unfold outcome
  split
  · next hend hresult => simp [hend, hresult]
  · next hfault =>
    refine iff_of_false (by simp) ?_
    rintro ⟨hend, hresult⟩
    exact hfault result hend hresult

/-- A line is faulty where reading stopped, if its end is not there or it is not complete. -/
theorem outcome_eq_error_iff {r : Reading α} {close : Word} {f : Fault} :
    r.outcome close = .error f ↔
      f = ⟨r.place.context, r.stop close, r.place.expected⟩ ∧
        ((r.stop close).kind.endsDeclaration = true → r.place.result? = none) := by
  unfold outcome
  split
  · next hend hresult => simp [hend, hresult]
  · next hfault =>
    rw [Except.error.injEq, eq_comm, iff_self_and]
    rintro - hend
    rw [Option.eq_none_iff_forall_ne_some]
    exact fun result hresult => hfault result hend hresult

/-- Where reading goes on: behind the line that was read, or where it resumes after a fault. -/
def left (r : Reading α) (c : Context) (close : Word) : List Word :=
  match r.outcome close with
  | .ok _ => passLineEnd r.rest
  | .error _ => c.resume r.rest

theorem length_left_le (r : Reading α) (c : Context) (close : Word) :
    (r.left c close).length ≤ r.rest.length := by
  unfold left
  split
  · exact length_passLineEnd_le r.rest
  · exact c.length_resume_le r.rest

/-- The span of the words that were read: from where the first begins to where the last ends, and
empty if that is further up. -/
def span (r : Reading α) (close : Word) : Span :=
  let first := r.words.headD (r.stop close)
  ⟨first.span.start, max first.span.start (r.words.getLastD first).span.stop⟩

end Reading

/-- A word at which no declaration may end is not left behind: either it is read, or it is passed
over after the fault that it is. -/
theorem Place.length_left_lt {α : Type} (p : Place α) {c : Context} (hc : c.isFatal = false)
    (close : Word) {w : Word} (hw : w.kind.endsDeclaration = false) (ws : List Word) :
    ((p.read (w :: ws)).left c close).length < (w :: ws).length := by
  have hall := p.read_words_append_rest (w :: ws)
  cases hwords : (p.read (w :: ws)).words with
  | nil =>
    have hrest : (p.read (w :: ws)).rest = w :: ws := by simpa [hwords] using hall
    have hleft : (p.read (w :: ws)).left c close = c.resume ws := by
      simp [Reading.left, Reading.outcome, Reading.stop, hrest, hw, Context.resume,
        Context.resumesAt, hc]
    rw [hleft, List.length_cons]
    exact Nat.lt_succ_of_le (c.length_resume_le ws)
  | cons v vs =>
    have hle := (p.read (w :: ws)).length_left_le c close
    have hlen := congrArg List.length hall
    simp only [hwords, List.cons_append, List.length_cons, List.length_append] at hlen ⊢
    omega

end TimedNet
