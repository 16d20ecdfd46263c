/-
  TimedNet.Proofs.Grammar.LineEnds

  Words cut into lines, each with the word that ends it (`endedLines`). Where a line ends matters
  to whoever reads it, as a fault may be shown there: what a line makes up depends on the line and
  the word that ends it, and on nothing else of the text (`outcome_append`). The lines of two
  texts with a newline between them are those of both (`linesOf_newline`).
-/
import TimedNet.Proofs.Grammar.LineReading
import TimedNet.Proofs.Token.Lines

namespace TimedNet

-- ============================================================================
-- Lines and their ends
-- ============================================================================

/-- The words of a line, and the word that ends it. -/
structure Line where
  words : List Word
  stop : Word

/-- The line that words make up, if there are any. -/
def lineOf (ws : List Word) (stop : Word) : List Line := if ws = [] then [] else [⟨ws, stop⟩]

/-- The lines that are not blank of words behind a line that was begun; `close` ends the last one.
-/
def endedLines (close : Word) (begun : List Word) : List Word → List Line
  | [] => lineOf begun close
  | w :: ws =>
    if w.isLineEnd then lineOf begun w ++ endedLines close [] ws
    else endedLines close (begun ++ [w]) ws

@[simp] theorem lineOf_nil (stop : Word) : lineOf [] stop = [] := rfl

theorem lineOf_of_ne_nil {ws : List Word} (h : ws ≠ []) (stop : Word) :
    lineOf ws stop = [⟨ws, stop⟩] := if_neg h

theorem endedLines_end {e : Word} (he : e.isLineEnd = true) (close : Word) (begun ws : List Word) :
    endedLines close begun (e :: ws) = lineOf begun e ++ endedLines close [] ws := if_pos he

/-- Words are cut at each end of a line; it closes what stands before it. -/
theorem endedLines_append {e : Word} (he : e.isLineEnd = true) (close : Word)
    (begun ws more : List Word) :
    endedLines close begun (ws ++ e :: more) =
      endedLines e begun ws ++ endedLines close [] more := by
  induction ws generalizing begun with
  | nil => exact endedLines_end he close begun more
  | cons w ws ih =>
    rw [List.cons_append, endedLines, endedLines]
    split
    · rw [ih [], List.append_assoc]
    · exact ih (begun ++ [w])

/-- Words over which no line ends are one line. -/
theorem endedLines_of_inLine {line : List Word} (h : ∀ w ∈ line, w.isLineEnd = false)
    (close : Word) (begun : List Word) :
    endedLines close begun line = lineOf (begun ++ line) close := by
  induction line generalizing begun with
  | nil => rw [List.append_nil]; rfl
  | cons w line ih =>
    have hw : ¬ w.isLineEnd = true := by simp [h w List.mem_cons_self]
    rw [endedLines, if_neg hw, ih (fun v hv => h v (List.mem_cons_of_mem w hv)),
      List.append_assoc, List.singleton_append]

theorem endedLines_skipLineEnds (close : Word) (ws : List Word) :
    endedLines close [] (skipLineEnds ws) = endedLines close [] ws := by
  induction ws with
  | nil => rfl
  | cons w ws ih =>
    by_cases hw : w.isLineEnd = true
    · rw [skipLineEnds, List.dropWhile_cons_of_pos hw, endedLines_end hw, lineOf_nil,
        List.nil_append]
      exact ih
    · rw [skipLineEnds, List.dropWhile_cons_of_neg hw]

theorem endedLines_passLineEnd (close : Word) (ws : List Word) :
    endedLines close [] (passLineEnd ws) = endedLines close [] ws := by
  cases ws with
  | nil => rfl
  | cons w ws =>
    rw [passLineEnd]
    split
    · next hw => rw [endedLines_end hw, lineOf_nil, List.nil_append]
    · rfl

/-- Words that begin with a line are cut where it ends. -/
theorem endedLines_line {line rest : List Word} (hne : line ≠ []) (hline : InLine line)
    (hrest : AtLineEnd rest) (close : Word) :
    endedLines close [] (line ++ rest) =
      ⟨line, rest.headD close⟩ :: endedLines close [] rest := by
  have hfree := isLineEnd_of_inLine hline
  cases rest with
  | nil =>
    rw [List.append_nil, endedLines_of_inLine hfree, List.nil_append, lineOf_of_ne_nil hne]
    rfl
  | cons e rest =>
    have he : e.isLineEnd = true := hrest e rfl
    rw [endedLines_append he, endedLines_of_inLine hfree, List.nil_append, lineOf_of_ne_nil hne,
      endedLines_end he, lineOf_nil, List.nil_append]
    rfl

/-- Lines with the words that end them are the lines of the words, if these ends are left out. -/
theorem map_words_endedLines (close : Word) (ws : List Word) :
    (endedLines close [] ws).map Line.words = lines ws := by
  unfold lines
  induction ws using cut_induction Word.isLineEnd with
  | nil => rfl
  | skip w ws hw ih => rw [endedLines_end hw, lineOf_nil, List.nil_append, cut_end hw, ih]
  | last line hne hfree =>
    rw [endedLines_of_inLine hfree, List.nil_append, lineOf_of_ne_nil hne, cut_last hne hfree]
    rfl
  | line line e rest hne hfree he ih =>
    rw [endedLines_append he, endedLines_of_inLine hfree, List.nil_append, lineOf_of_ne_nil hne,
      cut_line hne hfree he, ← ih]
    rfl

-- ============================================================================
-- Reading one line
-- ============================================================================

namespace Place

variable {α : Type} {rest : List Word}

theorem stop_append (p : Place α) (hrest : AtLineEnd rest) (line : List Word) (close : Word) :
    (p.read (line ++ rest)).stop close = (p.read line).stop (rest.headD close) := by
  rw [read_append p hrest, Reading.stop, Reading.stop]
  cases (p.read line).rest <;> rfl

/-- What a line makes up depends on the line and the word that ends it. -/
theorem outcome_append (p : Place α) (hrest : AtLineEnd rest) (line : List Word) (close : Word) :
    (p.read (line ++ rest)).outcome close = (p.read line).outcome (rest.headD close) := by
  have hstop := p.stop_append hrest line close
  have hplace : (p.read (line ++ rest)).place = (p.read line).place := by
    rw [read_append p hrest]
  rw [Reading.outcome, Reading.outcome, hstop, hplace]

theorem span_append (p : Place α) (hrest : AtLineEnd rest) (line : List Word) (close : Word) :
    (p.read (line ++ rest)).span close = (p.read line).span (rest.headD close) := by
  have hstop := p.stop_append hrest line close
  have hwords : (p.read (line ++ rest)).words = (p.read line).words := by
    rw [read_append p hrest]
  rw [Reading.span, Reading.span, hstop, hwords]

end Place

/-- A line that makes something up is read to its end. -/
theorem Place.words_of_outcome {α : Type} {p : Place α} {line : List Word} (hline : InLine line)
    {stop : Word} {result : α × Attributes} (h : (p.read line).outcome stop = .ok result) :
    (p.read line).words = line := by
  have hall := p.read_words_append_rest line
  have hend := (Reading.outcome_eq_ok_iff.mp h).1
  cases hrest : (p.read line).rest with
  | nil => rwa [hrest, List.append_nil] at hall
  | cons w ws =>
    have hw : w ∈ line := hall ▸ List.mem_append_right _ (hrest ▸ List.mem_cons_self)
    rw [Reading.stop, hrest, List.headD_cons, hline w hw] at hend
    exact absurd hend (by simp)

-- ============================================================================
-- Lines of what is left to read
-- ============================================================================

/-- What is left to read is nothing, or it begins with the first of the lines. -/
theorem exists_endedLine (close : Word) (ws : List Word) (hfile : ∀ w ∈ ws, w.kind ≠ .endOfFile) :
    (skipLineEnds ws = [] ∧ endedLines close [] ws = []) ∨
      ∃ line rest, skipLineEnds ws = line ++ rest ∧ line ≠ [] ∧ InLine line ∧ AtLineEnd rest ∧
        rest <:+ ws ∧
        endedLines close [] ws = ⟨line, rest.headD close⟩ :: endedLines close [] rest := by
  have hskip : skipLineEnds ws <:+ ws := List.dropWhile_suffix _
  obtain ⟨line, rest, hsplit, hline, hrest⟩ :=
    exists_line (skipLineEnds ws) fun w hw => hfile w (hskip.subset hw)
  rw [← endedLines_skipLineEnds]
  by_cases hne : line = []
  · left
    subst hne
    cases rest with
    | nil => exact ⟨hsplit, by rw [hsplit]; rfl⟩
    | cons e rest =>
      have hend : e.isLineEnd = true := hrest e rfl
      exact absurd hend (by simp [not_isLineEnd_of_skipLineEnds hsplit])
  · right
    refine ⟨line, rest, hsplit, hne, hline, hrest, ?_, ?_⟩
    · exact (hsplit ▸ List.suffix_append line rest).trans hskip
    · rw [hsplit]
      exact endedLines_line hne hline hrest close

/-- Behind a line, the same lines are left whether its end is passed or not. -/
theorem endedLines_left {α : Type} (p : Place α) {c : Context} (hc : c.isFatal = false)
    {line rest : List Word} (hline : InLine line) (hrest : AtLineEnd rest) (close : Word) :
    endedLines close [] ((p.read (line ++ rest)).left c close) = endedLines close [] rest ∧
      (p.read (line ++ rest)).left c close <:+ rest := by
  rcases p.left_of_line hc hline hrest close with hleft | hleft
  · rw [hleft]
    exact ⟨endedLines_passLineEnd close rest, passLineEnd_suffix rest⟩
  · rw [hleft]
    exact ⟨rfl, List.suffix_refl rest⟩

-- ============================================================================
-- Lines of a text
-- ============================================================================

/-- No line of a text holds the end of the text. -/
theorem Lexical.inText {outside : Bool} {ss : List Shape} (h : Lexical outside ss) :
    ∀ s ∈ ss, s.1 ≠ .endOfFile := by
  induction ss generalizing outside with
  | nil => exact fun s hs => absurd hs (by simp)
  | cons s ss ih => exact List.forall_mem_cons.mpr ⟨h.1.inText, ih h.2⟩

theorem Lexical.left {outside : Bool} {ss ts : List Shape} (h : Lexical outside (ss ++ ts)) :
    Lexical outside ss := by
  induction ss generalizing outside with
  | nil => trivial
  | cons s ss ih => exact ⟨h.1, ih h.2⟩

/-- The end of a line closes whatever was open. -/
theorem Lexical.behind {outside : Bool} {ss ts : List Shape} {text : String}
    (h : Lexical outside (ss ++ (.endOfLine, text) :: ts)) : Lexical true ts := by
  induction ss generalizing outside with
  | nil => exact h.2
  | cons s ss ih => exact ih h.2

/-- Where a line stands in words: at their beginning or behind the end of a line, and up to the end
of a line or of the words. -/
theorem exists_split_of_mem {close : Word} {ws : List Word} {l : Line}
    (h : l ∈ endedLines close [] ws) :
    ∃ front rest, ws = front ++ (l.words ++ rest) ∧ (∀ w ∈ l.words, w.isLineEnd = false) ∧
      AtLineEnd rest ∧ l.stop = rest.headD close ∧ ∀ e ∈ front.getLast?, e.isLineEnd = true := by
  induction ws using cut_induction Word.isLineEnd with
  | nil => exact absurd h (by simp [endedLines])
  | skip w ws hw ih =>
    rw [endedLines_end hw, lineOf_nil, List.nil_append] at h
    obtain ⟨front, rest, rfl, hfree, hrest, hstop, hfront⟩ := ih h
    refine ⟨w :: front, rest, rfl, hfree, hrest, hstop, ?_⟩
    cases front with
    | nil => exact fun e he => Option.some.inj he ▸ hw
    | cons v front => simpa only [List.getLast?_cons_cons] using hfront
  | last line hne hfree =>
    rw [endedLines_of_inLine hfree, List.nil_append, lineOf_of_ne_nil hne] at h
    obtain rfl := List.mem_singleton.mp h
    exact ⟨[], [], (List.append_nil line).symm, hfree, by simp [AtLineEnd], rfl, by simp⟩
  | line line e rest hne hfree he ih =>
    rw [endedLines_append he, endedLines_of_inLine hfree, List.nil_append, lineOf_of_ne_nil hne]
      at h
    rcases List.mem_append.mp h with h | h
    · obtain rfl := List.mem_singleton.mp h
      exact ⟨[], e :: rest, rfl, hfree, atLineEnd_cons he rest, rfl, by simp⟩
    · obtain ⟨front, more, rfl, hfree', hmore, hstop, hfront⟩ := ih h
      refine ⟨line ++ e :: front, more, by simp, hfree', hmore, hstop, ?_⟩
      cases front with
      | nil => simpa using he
      | cons v front => simpa using hfront

/-- A line over which no other line ends, before the end of a line or text. -/
def Line.IsEnded (l : Line) : Prop := InLine l.words ∧ l.stop.kind.endsDeclaration = true

section Lines

variable {close : Word} {ws : List Word}

/-- What holds of all words and of what ends them holds of every line and its end. -/
theorem forall_endedLines {P : Word → Prop} (hclose : P close) (hws : ∀ w ∈ ws, P w) :
    ∀ l ∈ endedLines close [] ws, ∀ w ∈ l.stop :: l.words, P w := by
  intro l hl
  obtain ⟨front, rest, rfl, -, -, hstop, -⟩ := exists_split_of_mem hl
  obtain ⟨-, hbehind⟩ := List.forall_mem_append.mp hws
  obtain ⟨hwords, hrest⟩ := List.forall_mem_append.mp hbehind
  refine List.forall_mem_cons.mpr ⟨?_, hwords⟩
  rw [hstop]
  cases rest with
  | nil => exact hclose
  | cons e rest => exact hrest e List.mem_cons_self

theorem isEnded_endedLines (hclose : close.kind.endsDeclaration = true)
    (hfile : ∀ w ∈ ws, w.kind ≠ .endOfFile) : ∀ l ∈ endedLines close [] ws, l.IsEnded := by
  intro l hl
  obtain ⟨front, rest, rfl, hfree, hrest, hstop, -⟩ := exists_split_of_mem hl
  constructor
  · intro w hw
    have hmem : w ∈ front ++ (l.words ++ rest) :=
      List.mem_append_right _ (List.mem_append_left _ hw)
    have hline : w.kind ≠ .endOfLine := by simpa [Word.isLineEnd] using hfree w hw
    exact TokenKind.endsDeclaration_eq_false hline (hfile w hmem)
  · rw [hstop]
    cases rest with
    | nil => exact hclose
    | cons e rest => exact Word.endsDeclaration_of_isLineEnd (hrest e rfl)

/-- What holds of a run of tokens, of what it begins with and of what is behind the end of a line in
it, holds of every line. -/
theorem run_endedLines {P : List Shape → Prop} (hleft : ∀ ss ts, P (ss ++ ts) → P ss)
    (hbehind : ∀ ss text ts, P (ss ++ (.endOfLine, text) :: ts) → P ts)
    (h : P (ws.map Word.shape)) : ∀ l ∈ endedLines close [] ws, P (l.words.map Word.shape) := by
  intro l hl
  obtain ⟨front, rest, rfl, -, -, -, hfront⟩ := exists_split_of_mem hl
  rw [List.map_append, List.map_append] at h
  apply hleft _ (rest.map Word.shape)
  rcases front.eq_nil_or_concat' with rfl | ⟨before, e, rfl⟩
  · exact h
  · have he : e.shape = (.endOfLine, e.text) :=
      Prod.ext (beq_iff_eq.mp (hfront e List.getLast?_concat)) rfl
    rw [List.map_append, List.map_singleton, he, List.append_assoc] at h
    exact hbehind _ _ _ h

/-- In a text, no attribute list is open where a line begins. -/
theorem lexical_endedLines (h : Lexical true (ws.map Word.shape)) :
    ∀ l ∈ endedLines close [] ws, Lexical true (l.words.map Word.shape) :=
  run_endedLines (fun _ _ h => h.left) (fun _ _ _ h => h.behind) h

end Lines

/-- A word that ends no line stands on one. -/
theorem endedLines_ne_nil {close : Word} {begun ws : List Word}
    (h : begun ≠ [] ∨ ∃ w ∈ ws, w.isLineEnd = false) : endedLines close begun ws ≠ [] := by
  induction ws generalizing begun with
  | nil =>
    rcases h with hbegun | ⟨w, hw, -⟩
    · rw [endedLines, lineOf_of_ne_nil hbegun]
      simp
    · exact absurd hw (by simp)
  | cons w ws ih =>
    rw [endedLines]
    split
    · next hend =>
      rcases h with hbegun | ⟨v, hv, hvend⟩
      · rw [lineOf_of_ne_nil hbegun]
        simp
      · rcases List.mem_cons.mp hv with rfl | hv
        · exact absurd hend (by simp [hvend])
        · have hmore := @ih [] (Or.inr ⟨v, hv, hvend⟩)
          simp [hmore]
    · exact ih (Or.inl (by simp))

-- ============================================================================
-- Lines of two texts
-- ============================================================================

/-- The line as many lines further down. -/
def Line.below (n : Nat) (l : Line) : Line := ⟨l.words.map (Word.below n), l.stop.below n⟩

theorem lineOf_below (n : Nat) (ws : List Word) (stop : Word) :
    lineOf (ws.map (Word.below n)) (stop.below n) = (lineOf ws stop).map (Line.below n) := by
  unfold lineOf
  by_cases hws : ws = []
  · simp [hws]
  · simp [hws, Line.below]

/-- Lines move down with their words. -/
theorem endedLines_below (n : Nat) (close : Word) (begun ws : List Word) :
    endedLines (close.below n) (begun.map (Word.below n)) (ws.map (Word.below n)) =
      (endedLines close begun ws).map (Line.below n) := by
  induction ws generalizing begun with
  | nil => exact lineOf_below n begun close
  | cons w ws ih =>
    rw [List.map_cons, endedLines, endedLines]
    by_cases hw : w.isLineEnd = true
    · have hbelow : (w.below n).isLineEnd = true := hw
      rw [if_pos hw, if_pos hbelow, lineOf_below, List.map_append]
      exact congrArg _ (ih [])
    · have hbelow : ¬ (w.below n).isLineEnd = true := hw
      rw [if_neg hw, if_neg hbelow, ← ih, List.map_append]
      rfl

/-- The lines of a text that are not blank. -/
def linesOf (cs : List Char) : List Line := endedLines (endOf cs) [] (wordsOf cs)

/-- The lines of a text that others follow. -/
def linesAbove (cs : List Char) : List Line := endedLines (newlineOf cs) [] (wordsOf cs)

theorem kind_ne_of_mem_wordsOf (cs : List Char) : ∀ w ∈ wordsOf cs, w.kind ≠ .endOfFile := by
  intro w hw
  exact (lexical_wordsOf cs).inText w.shape (List.mem_map_of_mem hw)

theorem lexical_linesOf (cs : List Char) :
    ∀ l ∈ linesOf cs, Lexical true (l.words.map Word.shape) := by
  apply lexical_endedLines
  exact lexical_wordsOf cs

theorem isEnded_linesOf (cs : List Char) : ∀ l ∈ linesOf cs, l.IsEnded :=
  isEnded_endedLines rfl (kind_ne_of_mem_wordsOf cs)

theorem inLine_linesOf (cs : List Char) : ∀ l ∈ linesOf cs, InLine l.words := by
  intro l hl
  exact (isEnded_linesOf cs l hl).1

/-- **One newline.** The lines of two texts with a newline between them: those of the lower one are
further down. -/
theorem linesOf_newline (as bs : List Char) :
    linesOf (as ++ '\n' :: bs) =
      linesAbove as ++
        (linesOf bs).map (Line.below ((Text.bytes as).count Text.newline + 1)) := by
  have hend : (newlineOf as).isLineEnd = true := rfl
  rw [linesOf, wordsOf_newline, endOf_newline, endedLines_append hend]
  exact congrArg _ (endedLines_below _ (endOf bs) [] (wordsOf bs))

end TimedNet
