/-
  TimedNet.Proofs.Session.TrailingText

  What stands behind the words of a row does not matter. A line that is read to its end leaves no
  attribute list open (`mode_of_outcome`), so in a text that is read as a network, blanks and
  comments behind any row are no data and bring no words. What the lines declare depends on their
  words alone, wherever they end (`parse_of_words`), and that is all a trail can change
  (`parse_of_trails`).
-/
import TimedNet.Proofs.Grammar.InStep
import TimedNet.Proofs.Grammar.TextRows
import TimedNet.Proofs.Session.CleanText
import TimedNet.Proofs.Token.Trails

namespace TimedNet

open Token (IsGap)

-- ============================================================================
-- What a line leaves open
-- ============================================================================

namespace Stage

/-- The mode of the scanner in a stage of a line. -/
def mode : Stage → Token.Mode
  | .before | .closed => .outside
  | .opened | .key | .colon => .key
  | .value | .separator => .separator

/-- The mode is led along from stage to stage. -/
theorem Step.mode {stage stage' : Stage} {k : TokenKind} (h : Step stage k stage') :
    stage'.mode = stage.mode.after k := by
  cases h with
  | before hk => cases k <;> first | rfl | exact absurd rfl hk
  | _ => rfl

end Stage

namespace Place

variable {α : Type} {p : Place α} {line : List Word} {stop : Word} {result : α × Attributes}

/-- **A reading.** The words that are read lead the scanner to where the grammar stands. -/
theorem mode_read (p : Place α) (ws : List Word) :
    (p.read ws).place.stage.mode = p.stage.mode.through (kinds (p.read ws).words) := by
  induction ws generalizing p with
  | nil => rfl
  | cons w ws ih =>
    cases hnext : p.next w with
    | none =>
      rw [read_cons_of_none hnext]
      rfl
    | some q =>
      rw [read_cons_of_some hnext, ih q, (next_cases hnext).1.mode]
      rfl

/-- Where a line may end, no list is open. -/
theorem mode_of_result (h : p.result? = some result) : p.stage.mode = .outside := by
  cases p with
  | list c a entries step => cases step <;> first | rfl | exact absurd h (by simp [result?])
  | _ => rfl

/-- A line that makes something up leaves no list open. -/
theorem mode_of_outcome (hp : p.stage = .before) (hline : InLine line)
    (h : (p.read line).outcome stop = .ok result) :
    Token.Mode.through .outside (kinds line) = .outside := by
  have hmode := p.mode_read line
  rw [words_of_outcome hline h, hp] at hmode
  exact hmode.symm.trans (mode_of_result (Reading.outcome_eq_ok_iff.mp h).2)

/-- Which of the ends ends a line does not matter for what it makes up. -/
theorem outcome_stop (hp : p.result? = none) (hline : InLine line)
    (h : (p.read line).outcome stop = .ok result) {stop' : Word}
    (hstop' : stop'.kind.endsDeclaration = true) :
    (p.read line).outcome stop' = .ok result ∧ (p.read line).span stop' = (p.read line).span stop ∧
      ∀ c, (p.read line).left c stop' = (p.read line).left c stop := by
  obtain ⟨-, hresult⟩ := Reading.outcome_eq_ok_iff.mp h
  have hwords := words_of_outcome hline h
  have hrest : (p.read line).rest = [] := by
    have hall := p.read_words_append_rest line
    rw [hwords] at hall
    exact List.append_right_eq_self.mp hall
  have hne : line ≠ [] := by
    rintro rfl
    exact absurd (hp.symm.trans hresult) (by simp)
  have hstop : (p.read line).stop stop' = stop' := by rw [Reading.stop, hrest]; rfl
  have houtcome : (p.read line).outcome stop' = .ok result :=
    Reading.outcome_eq_ok_iff.mpr ⟨hstop.symm ▸ hstop', hresult⟩
  obtain ⟨w, ws, rfl⟩ := List.exists_cons_of_ne_nil hne
  refine ⟨houtcome, ?_, fun c => ?_⟩
  · rw [Reading.span, Reading.span, hwords]
    rfl
  · rw [Reading.left, Reading.left, houtcome, h]

end Place

-- ============================================================================
-- Lines with the same words
-- ============================================================================

namespace Store

variable {check : BoundsCheck} {s : Store}

/-- A line about which nothing is said that is an error makes up a phrase. -/
theorem exists_phrase_of_enter {stop : Word} {line : List Word}
    (hclean : ∀ d ∈ (s.enter check stop line).diagnostics, d.isError = false) :
    ∃ φ as, (Phrase.opening.read line).outcome stop = .ok (φ, as) := by
  cases houtcome : (Phrase.opening.read line).outcome stop with
  | ok result => exact ⟨result.1, result.2, rfl⟩
  | error f =>
    have hsaid : f.diagnostic ∈ (s.enter check stop line).diagnostics := by
      rw [enter_of_error houtcome]
      exact List.mem_append_right _ List.mem_cons_self
    exact absurd (hclean _ hsaid) (by simp [f.isError_diagnostic])

/-- What becomes of such a line does not depend on which of the ends ends it. -/
theorem enter_stop {stop stop' : Word} {line : List Word} (hline : InLine line)
    (hstop' : stop'.kind.endsDeclaration = true)
    (hclean : ∀ d ∈ (s.enter check stop line).diagnostics, d.isError = false) :
    s.enter check stop' line = s.enter check stop line := by
  obtain ⟨φ, as, houtcome⟩ := exists_phrase_of_enter hclean
  obtain ⟨houtcome', hspan, hleft⟩ :=
    Place.outcome_stop (p := Phrase.opening) rfl hline houtcome hstop'
  rw [enter, enter, houtcome, houtcome', hspan, hleft]

/-- **Lines with the same words** are entered alike, if the ones are entered without an error. -/
theorem enterLines_of_words {ls ms : List Line} (hls : ∀ l ∈ ls, l.IsEnded)
    (hms : ∀ m ∈ ms, m.IsEnded) (hwords : ms.map Line.words = ls.map Line.words)
    (hclean : ∀ d ∈ (s.enterLines check ls).1, d.isError = false) :
    s.enterLines check ms = s.enterLines check ls := by
  induction ls generalizing s ms with
  | nil =>
    obtain rfl := List.map_eq_nil_iff.mp hwords
    rfl
  | cons l ls ih =>
    obtain ⟨m, ms, rfl, hm, hrest⟩ := List.map_eq_cons_iff.mp hwords
    obtain ⟨hl, hls⟩ := List.forall_mem_cons.mp hls
    obtain ⟨⟨-, hstop⟩, hms⟩ := List.forall_mem_cons.mp hms
    obtain ⟨hfirst, hothers⟩ := List.forall_mem_append.mp hclean
    have hentry : s.enter check m.stop m.words = s.enter check l.stop l.words := by
      rw [hm]
      exact enter_stop hl.1 hstop hfirst
    rw [enterLines, enterLines, hentry, ih hls hms hrest hothers]

end Store

/-- **Texts with the same words** on their lines, in the same places, are read alike, if one of them
is read as a network. -/
theorem parse_of_words {source text : String} {options : Options} {n : System}
    (hread : (parse source options).system = some n)
    (hwords : (linesOf text.toList).map Line.words = (linesOf source.toList).map Line.words) :
    parse text options = parse source options := by
  obtain ⟨first, others, name, as, hlines, hheader, hclean, -⟩ := exists_header_of_parse hread
  have hsource := isEnded_linesOf source.toList
  have htext := isEnded_linesOf text.toList
  rw [hlines] at hwords hsource
  obtain ⟨first', others', hlines', hfirst, hothers⟩ := List.map_eq_cons_iff.mp hwords
  rw [hlines'] at htext
  obtain ⟨hended, hended'⟩ := List.forall_mem_cons.mp htext
  obtain ⟨hfirstEnded, hothersEnded⟩ := List.forall_mem_cons.mp hsource
  obtain ⟨hheader', hspan, -⟩ :=
    Place.outcome_stop (p := Header.opening) rfl hfirstEnded.1 hheader hended.2
  rw [← hfirst] at hheader' hspan
  have henter := Store.enterLines_of_words hothersEnded hended' hothers hclean
  rw [parse_of_header hlines hheader hclean, parse_of_header hlines' hheader' (henter ▸ hclean),
    henter, hspan, hfirst]

-- ============================================================================
-- Rows and their trails
-- ============================================================================

/-- A trail behind a row that leaves no list open brings no words. -/
theorem wordsOf_trail {row trail : List Char} (hrow : '\n' ∉ row) (htrail : IsGap trail [])
    (hopen : Token.Mode.through .outside (kinds (wordsOf row)) = .outside) :
    wordsOf (row ++ trail) = wordsOf row := by
  have hkinds : kinds (wordsOf row) = (Token.scanFrom .outside 0 row).map Token.kind := by
    rw [kinds, wordsOf, List.map_map]
    rfl
  rw [hkinds] at hopen
  rw [wordsOf, Token.scanFrom_trail htrail hrow hopen, wordsOf]
  refine List.map_congr_left fun t ht => ?_
  have hle := Token.le_width_of_mem_scanFrom ht
  rw [Nat.zero_add, ← Text.length_bytes] at hle
  rw [Token.word, Token.word, LineIndex.span, LineIndex.span, Text.bytes_append,
    LineIndex.position_append _ _ hle.1, LineIndex.position_append _ _ hle.2]

/-- Lines of which nothing is said that is an error leave no list open. -/
theorem mode_of_enterLines {check : BoundsCheck} {s : Store} {ls : List Line}
    (hls : ∀ l ∈ ls, InLine l.words)
    (hclean : ∀ d ∈ (s.enterLines check ls).1, d.isError = false) :
    ∀ l ∈ ls, Token.Mode.through .outside (kinds l.words) = .outside := by
  induction ls generalizing s with
  | nil => simp
  | cons l ls ih =>
    obtain ⟨hl, hls⟩ := List.forall_mem_cons.mp hls
    obtain ⟨hfirst, hothers⟩ := List.forall_mem_append.mp hclean
    obtain ⟨φ, as, houtcome⟩ := Store.exists_phrase_of_enter hfirst
    exact List.forall_mem_cons.mpr
      ⟨Place.mode_of_outcome (p := Phrase.opening) rfl hl houtcome, ih hls hothers⟩

/-- In a text that is read as a network, no row leaves a list open. -/
theorem mode_of_row {source : String} {options : Options} {n : System}
    (hread : (parse source options).system = some n) {row : List Char}
    (hrow : row ∈ Text.rows source) :
    Token.Mode.through .outside (kinds (wordsOf row)) = .outside := by
  obtain ⟨first, others, name, as, hlines, hheader, hclean, -⟩ := exists_header_of_parse hread
  have hinLine := inLine_linesOf source.toList
  rw [hlines] at hinLine
  obtain ⟨hfirst, hothers⟩ := List.forall_mem_cons.mp hinLine
  have hall : ∀ l ∈ linesOf source.toList,
      Token.Mode.through .outside (kinds l.words) = .outside := by
    rw [hlines]
    exact List.forall_mem_cons.mpr
      ⟨Place.mode_of_outcome (p := Header.opening) rfl hfirst hheader,
        mode_of_enterLines hothers hclean⟩
  by_cases hne : wordsOf row = []
  · rw [hne]
    rfl
  · -- the row is one of the lines
    obtain ⟨k, hline⟩ := exists_mem_stacked (List.mem_map_of_mem hrow) hne
    rw [← words_linesOf] at hline
    obtain ⟨l, hl, hwords⟩ := List.mem_map.mp hline
    have hkinds : kinds l.words = kinds (wordsOf row) := by
      rw [hwords, kinds, kinds, List.map_map]
      rfl
    rw [← hkinds]
    exact hall l hl

/-- **Trailing text** cannot be seen. Put blanks and a comment behind any rows of a text that is read
as a network, such as a carriage return behind each, and more rows of blanks and comments below it:
the text is read as the same network, with the same ids, attributes and places, and the same is said
about it. -/
theorem parse_of_trails {source : String} {options : Options} {n : System}
    (hread : (parse source options).system = some n) {trailed more : List (List Char)}
    (htrailed : (Text.rows source).Forall₂
      (fun row row' => ∃ trail, IsGap trail [] ∧ row' = row ++ trail) trailed)
    (hmore : ∀ row ∈ more, IsGap row []) :
    parse (Text.ofRows (trailed ++ more)) options = parse source options := by
  have hsource : ∀ row ∈ Text.rows source, '\n' ∉ row ∧
      Token.Mode.through .outside (kinds (wordsOf row)) = .outside := fun row hrow =>
    ⟨Text.newline_notMem_of_mem_rows hrow, mode_of_row hread hrow⟩
  have hrows : trailed.map wordsOf = (Text.rows source).map wordsOf ∧
      ∀ row ∈ trailed, '\n' ∉ row := by
    generalize Text.rows source = rows at htrailed hsource
    induction htrailed with
    | nil => exact ⟨rfl, by simp⟩
    | @cons row row' rows rows' hrow _ ih =>
      obtain ⟨trail, htrail, rfl⟩ := hrow
      obtain ⟨⟨hnewline, hopen⟩, hsource⟩ := List.forall_mem_cons.mp hsource
      obtain ⟨hwords, hfree⟩ := ih hsource
      refine ⟨?_, List.forall_mem_cons.mpr ⟨?_, hfree⟩⟩
      · rw [List.map_cons, List.map_cons, hwords, wordsOf_trail hnewline htrail hopen]
      · simpa using ⟨hnewline, Token.newline_notMem_of_trail htrail⟩
  have hblank : ∀ words ∈ more.map wordsOf, words = [] := by
    intro words hwords
    obtain ⟨row, hrow, rfl⟩ := List.mem_map.mp hwords
    rw [wordsOf, Token.scanFrom_of_trail (hmore row hrow), List.map_nil]
  have hfree : ∀ row ∈ trailed ++ more, '\n' ∉ row :=
    List.forall_mem_append.mpr
      ⟨hrows.2, fun row hrow => Token.newline_notMem_of_trail (hmore row hrow)⟩
  refine parse_of_words hread ?_
  rw [words_linesOf_ofRows hfree, List.map_append, stacked_append_of_nil _ hblank, hrows.1,
    ← words_linesOf]

/-- A text with a `#` in a value, and the same one with carriage returns and comments. -/
def hashSample : String := "system:s\x7ba:b#c\x7d\nevent:e"

def hashTrailedSample : String := "system:s\x7ba:b#c\x7d\r\nevent:e # one\r\n\t#\x7b"

theorem parse_of_trails_hashSample :
    (∃ n, (parse hashSample {}).system = some n) ∧
      parse hashTrailedSample {} = parse hashSample {} := by
  have hread : (parse hashSample {}).system.isSome = true := by decide +kernel
  obtain ⟨n, hn⟩ := Option.isSome_iff_exists.mp hread
  have hrows : Text.rows hashSample = ["system:s\x7ba:b#c\x7d".toList, "event:e".toList] := by
    decide +kernel
  have hreturn : IsGap ['\r'] [] := .space rfl .nil
  have hcomment : IsGap " # one\r".toList [] := .space rfl (.comment (by decide) (by simp))
  have hbelow : IsGap "\t#\x7b".toList [] := .space rfl (.comment (by decide) (by simp))
  have htext : hashTrailedSample = Text.ofRows (["system:s\x7ba:b#c\x7d".toList ++ ['\r'],
      "event:e".toList ++ " # one\r".toList] ++ ["\t#\x7b".toList]) := by decide +kernel
  refine ⟨⟨n, hn⟩, ?_⟩
  rw [htext]
  refine parse_of_trails hn ?_ (by simpa using hbelow)
  rw [hrows]
  exact .cons ⟨_, hreturn, rfl⟩ (.cons ⟨_, hcomment, rfl⟩ .nil)

end TimedNet
