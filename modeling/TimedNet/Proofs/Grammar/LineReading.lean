/-
  TimedNet.Proofs.Grammar.LineReading

  Reading a line that stands before other words. What is read of it does not depend on what follows
  (`read_append`); it makes up a declaration exactly if the grammar derives it, and reading goes on
  behind it either way.
-/
import TimedNet.Proofs.Grammar.Lines

namespace TimedNet

-- ============================================================================
-- Lines of words
-- ============================================================================

/-- The lines that words make up, without the blank ones. -/
def lines (ws : List Word) : List (List Word) := cut Word.isLineEnd ws

/-- The kinds of words, one after the other. -/
def kinds (ws : List Word) : List TokenKind := ws.map Word.kind

/-- Words over which no line ends. -/
def InLine (line : List Word) : Prop := ∀ w ∈ line, w.kind.endsDeclaration = false

/-- Words behind a line: none, or such that begin with its end. -/
def AtLineEnd (rest : List Word) : Prop := ∀ w ∈ rest.head?, w.isLineEnd = true

theorem atLineEnd_cons {e : Word} (he : e.isLineEnd = true) (rest : List Word) :
    AtLineEnd (e :: rest) := by
  intro w hw
  obtain rfl := Option.some.inj hw
  exact he

theorem Word.endsDeclaration_of_isLineEnd {w : Word} (h : w.isLineEnd = true) :
    w.kind.endsDeclaration = true := by
  rw [Word.isLineEnd, beq_iff_eq] at h
  rw [h]
  rfl

theorem isLineEnd_of_inLine {line : List Word} (h : InLine line) :
    ∀ w ∈ line, w.isLineEnd = false := by
  intro w hw
  rw [← Bool.not_eq_true]
  intro hend
  exact absurd (h w hw) (by simp [Word.endsDeclaration_of_isLineEnd hend])

theorem map_kinds_lines (ws : List Word) :
    (lines ws).map kinds = cut TokenKind.isLineEnd (kinds ws) :=
  (cut_map Word.kind TokenKind.isLineEnd ws).symm

/-- Words that begin within a line are cut where it ends. -/
theorem lines_append {line rest : List Word} (hne : line ≠ []) (hline : InLine line)
    (hrest : AtLineEnd rest) : lines (line ++ rest) = line :: lines rest := by
  have hfree := isLineEnd_of_inLine hline
  cases rest with
  | nil => rw [List.append_nil, lines, cut_last hne hfree, lines, cut_nil]
  | cons e rest =>
    have he : e.isLineEnd = true := hrest e rfl
    rw [lines, cut_line hne hfree he, lines, cut_end he]

theorem lines_skipLineEnds (ws : List Word) : lines (skipLineEnds ws) = lines ws := by
  induction ws with
  | nil => rfl
  | cons w ws ih =>
    by_cases hw : w.isLineEnd = true
    · rw [skipLineEnds, List.dropWhile_cons_of_pos hw, lines, lines, cut_end hw]
      exact ih
    · rw [skipLineEnds, List.dropWhile_cons_of_neg hw]

theorem lines_passLineEnd (ws : List Word) : lines (passLineEnd ws) = lines ws := by
  cases ws with
  | nil => rfl
  | cons w ws =>
    rw [passLineEnd]
    split
    · next hw => rw [lines, lines, cut_end hw]
    · rfl

theorem passLineEnd_suffix (ws : List Word) : passLineEnd ws <:+ ws := by
  cases ws with
  | nil => exact List.suffix_refl []
  | cons w ws =>
    rw [passLineEnd]
    split
    · exact List.suffix_cons w ws
    · exact List.suffix_refl _

/-- The words from the first one on at which a declaration ends. -/
def fromEnd (ws : List Word) : List Word := ws.dropWhile fun w => !w.kind.endsDeclaration

theorem fromEnd_append {line : List Word} (h : InLine line) (rest : List Word) :
    fromEnd (line ++ rest) = fromEnd rest := by
  refine List.dropWhile_append_of_pos fun w hw => ?_
  rw [h w hw]
  rfl

theorem endsDeclaration_of_fromEnd (ws : List Word) :
    ∀ w ∈ (fromEnd ws).head?, w.kind.endsDeclaration = true := by
  intro w hw
  have hhead := List.head?_dropWhile_not (fun w : Word => !w.kind.endsDeclaration) ws
  rw [show ws.dropWhile (fun w => !w.kind.endsDeclaration) = fromEnd ws from rfl,
    Option.mem_def.mp hw] at hhead
  simpa using hhead

/-- Behind all words that end no line there are none, or the end of one. -/
theorem atLineEnd_dropWhile (ws : List Word) : AtLineEnd (ws.dropWhile fun w => !w.isLineEnd) := by
  intro w hw
  have hhead := List.head?_dropWhile_not (fun w : Word => !w.isLineEnd) ws
  rw [Option.mem_def.mp hw] at hhead
  simpa using hhead

/-- Words within a line, followed by its end. -/
theorem exists_line (ws : List Word) (hfile : ∀ w ∈ ws, w.kind ≠ .endOfFile) :
    ∃ line rest, ws = line ++ rest ∧ InLine line ∧ AtLineEnd rest := by
  refine ⟨ws.takeWhile fun w => !w.isLineEnd, ws.dropWhile fun w => !w.isLineEnd,
    List.takeWhile_append_dropWhile.symm, ?_, atLineEnd_dropWhile ws⟩
  intro w hw
  have hline : w.isLineEnd = false := by simpa using List.mem_takeWhile_imp hw
  refine TokenKind.endsDeclaration_eq_false ?_ (hfile w (List.takeWhile_subset _ hw))
  simpa [Word.isLineEnd] using hline

/-- Words within a line, followed by its end or by the end of the text, be there words of the line
behind that or not. -/
theorem exists_segment (ws : List Word) :
    ∃ taken left behind, ws = taken ++ (left ++ behind) ∧ fromEnd ws = left ++ behind ∧
      InLine taken ∧ (∀ w ∈ left, w.isLineEnd = false) ∧ (∀ w ∈ left.head?, w.kind = .endOfFile) ∧
      AtLineEnd behind := by
  refine ⟨ws.takeWhile fun w => !w.kind.endsDeclaration,
    (fromEnd ws).takeWhile fun w => !w.isLineEnd, (fromEnd ws).dropWhile fun w => !w.isLineEnd,
    ?_, List.takeWhile_append_dropWhile.symm, ?_, ?_, ?_, atLineEnd_dropWhile _⟩
  · rw [List.takeWhile_append_dropWhile, fromEnd, List.takeWhile_append_dropWhile]
  · exact fun w hw => by simpa using List.mem_takeWhile_imp hw
  · exact fun w hw => by simpa using List.mem_takeWhile_imp hw
  · intro w hw
    have hstart := endsDeclaration_of_fromEnd ws
    cases hend : fromEnd ws with
    | nil => simp [hend] at hw
    | cons v more =>
      rw [hend] at hstart hw
      by_cases hline : v.isLineEnd = true
      · simp [hline] at hw
      · obtain rfl : v = w := by simpa [hline] using hw
        by_contra hkind
        have hinside := TokenKind.endsDeclaration_eq_false (by simpa [Word.isLineEnd] using hline) hkind
        exact absurd (hstart v rfl) (by simp [hinside])

-- ============================================================================
-- Reading a line
-- ============================================================================

namespace Place

variable {α : Type} {line rest : List Word} {close : Word}

/-- What is read of a line does not depend on what follows. -/
theorem read_append (p : Place α) (hrest : AtLineEnd rest) (line : List Word) :
    p.read (line ++ rest) =
      ⟨(p.read line).words, (p.read line).parts, (p.read line).place,
        (p.read line).rest ++ rest⟩ := by
  induction line generalizing p with
  | nil =>
    cases rest with
    | nil => rfl
    | cons e rest =>
      have hnext := p.next_eq_none (Word.endsDeclaration_of_isLineEnd (hrest e rfl))
      exact read_cons_of_none hnext rest
  | cons w line ih =>
    rw [List.cons_append]
    cases hnext : p.next w with
    | none => rw [read_cons_of_none hnext, read_cons_of_none hnext, List.cons_append]
    | some q => rw [read_cons_of_some hnext, read_cons_of_some hnext, ih q]

/-- Where reading stops, a line ends exactly if all of it was read. -/
theorem endsDeclaration_stop_iff (p : Place α) (hline : InLine line) (hrest : AtLineEnd rest)
    (hclose : close.kind.endsDeclaration = true) :
    ((p.read (line ++ rest)).stop close).kind.endsDeclaration = true ↔ (p.read line).rest = [] := by
  rw [read_append p hrest, Reading.stop]
  have hsuffix : (p.read line).rest ⊆ line := by
    have hall := p.read_words_append_rest line
    intro w hw
    exact hall ▸ List.mem_append_right _ hw
  cases hleft : (p.read line).rest with
  | nil =>
    cases rest with
    | nil => simpa using hclose
    | cons e rest => simpa using Word.endsDeclaration_of_isLineEnd (hrest e rfl)
  | cons w ws =>
    have hw := hline w (hsuffix (by rw [hleft]; exact List.mem_cons_self))
    simp [hw]

/-- **A line that the grammar derives.** It is read to its end, and makes up a declaration. -/
theorem outcome_of_mem {p : Place α} (hp : p.Distinct) (hline : InLine line)
    (hrest : AtLineEnd rest) (hclose : close.kind.endsDeclaration = true)
    (h : kinds line ∈ p.remaining) :
    (∃ result, (p.read (line ++ rest)).outcome close = .ok result) ∧
      (p.read (line ++ rest)).rest = rest := by
  obtain ⟨hall, hresult⟩ := (mem_remaining_iff_read hp line).mp h
  have hstop := (endsDeclaration_stop_iff p hline hrest hclose).mpr hall
  have hplace : (p.read (line ++ rest)).place = (p.read line).place := by
    rw [read_append p hrest]
  obtain ⟨result, hresult⟩ := Option.isSome_iff_exists.mp hresult
  refine ⟨⟨result, Reading.outcome_eq_ok_iff.mpr ⟨hstop, ?_⟩⟩, ?_⟩
  · rw [hplace, hresult]
  · rw [read_append p hrest, hall, List.nil_append]

/-- **A line that the grammar does not derive.** There is a fault, at a word of the line or at what
follows. -/
theorem outcome_of_notMem {p : Place α} (hp : p.Distinct) (hline : InLine line)
    (hrest : AtLineEnd rest) (hclose : close.kind.endsDeclaration = true)
    (h : kinds line ∉ p.remaining) :
    ∃ f : Fault, (p.read (line ++ rest)).outcome close = .error f ∧
      (f.found ∈ line ∨ f.found = rest.headD close) := by
  have hstop := endsDeclaration_stop_iff p hline hrest hclose
  have hplace : (p.read (line ++ rest)).place = (p.read line).place := by
    rw [read_append p hrest]
  let place := (p.read line).place
  refine ⟨⟨place.context, (p.read (line ++ rest)).stop close, place.expected⟩, ?_, ?_⟩
  · rw [Reading.outcome, hplace]
    split
    · next hend hresult =>
      have hall := hstop.mp hend
      exact absurd ((mem_remaining_iff_read hp line).mpr ⟨hall, by rw [hresult]; rfl⟩) h
    · rfl
  · show (p.read (line ++ rest)).stop close ∈ line ∨ _
    rw [Reading.stop, read_append p hrest]
    cases hleft : (p.read line).rest with
    | nil => exact Or.inr rfl
    | cons w ws =>
      have hall := p.read_words_append_rest line
      rw [hleft] at hall
      exact Or.inl (hall ▸ List.mem_append_right _ List.mem_cons_self)

/-- Reading keeps to a line: no word at which a declaration ends is read. -/
theorem inLine_read (p : Place α) (ws : List Word) : InLine (p.read ws).words := by
  induction ws generalizing p with
  | nil => exact fun w hw => absurd hw List.not_mem_nil
  | cons v ws ih =>
    cases hnext : p.next v with
    | none =>
      rw [read_cons_of_none hnext]
      exact fun w hw => absurd hw List.not_mem_nil
    | some q =>
      rw [read_cons_of_some hnext]
      refine List.forall_mem_cons.mpr ⟨?_, ih q⟩
      rw [← Bool.not_eq_true]
      intro hend
      exact absurd (hnext.symm.trans (p.next_eq_none hend)) (by simp)

theorem fromEnd_rest (p : Place α) (ws : List Word) :
    fromEnd (p.read ws).rest = fromEnd ws := by
  have hall := p.read_words_append_rest ws
  rw [← fromEnd_append (p.inLine_read ws), hall]

/-- What makes something up is read up to where a declaration ends. -/
theorem rest_of_outcome (p : Place α) {ws : List Word} {result : α × Attributes}
    (h : (p.read ws).outcome close = .ok result) : (p.read ws).rest = fromEnd ws := by
  have hend := (Reading.outcome_eq_ok_iff.mp h).1
  rw [← p.fromEnd_rest ws]
  cases hleft : (p.read ws).rest with
  | nil => rfl
  | cons w more =>
    rw [Reading.stop, hleft, List.headD_cons] at hend
    rw [fromEnd, List.dropWhile_cons_of_neg (by simp [hend])]

/-- **Where reading goes on**: at the first word at which a declaration ends, or behind it if it is
the end of a line that was read. -/
theorem left_cases (p : Place α) {c : Context} (hc : c.isFatal = false) (close : Word)
    (ws : List Word) :
    (p.read ws).left c close = passLineEnd (fromEnd ws) ∨
      (p.read ws).left c close = fromEnd ws := by
  unfold Reading.left
  split
  · next result houtcome => exact Or.inl (congrArg passLineEnd (p.rest_of_outcome houtcome))
  · right
    have hresumes : ∀ k, c.resumesAt k = k.endsDeclaration := fun k => by
      simp [Context.resumesAt, hc]
    simp only [Context.resume, hresumes]
    exact p.fromEnd_rest ws

/-- Behind a line, reading goes on with the next. -/
theorem left_of_line (p : Place α) {c : Context} (hc : c.isFatal = false) (hline : InLine line)
    (hrest : AtLineEnd rest) (close : Word) :
    (p.read (line ++ rest)).left c close = passLineEnd rest ∨
      (p.read (line ++ rest)).left c close = rest := by
  have hend : fromEnd (line ++ rest) = rest := by
    rw [fromEnd_append hline]
    cases rest with
    | nil => rfl
    | cons e rest =>
      have he := Word.endsDeclaration_of_isLineEnd (hrest e rfl)
      exact List.dropWhile_cons_of_neg (by simp [he])
  have hleft := p.left_cases hc close (line ++ rest)
  rwa [hend] at hleft

end Place

end TimedNet
