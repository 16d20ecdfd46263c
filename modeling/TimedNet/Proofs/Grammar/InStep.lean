/-
  TimedNet.Proofs.Grammar.InStep

  The scanner and the grammar stay in step. The scanner decides without a word from the grammar
  where it is in an attribute list. `Stance` tells apart where it may stand, as far as the next token
  goes, and `Steered` says that tokens come as their stances let them. Each place of a line goes
  with a stance, and a word that leads from place to place leads from stance to stance
  (`Place.InStep.next`); so the word at which reading stops is one that the scanner may give there
  (`isInStep_of_outcome`).
-/
import TimedNet.Proofs.Grammar.Expected

namespace TimedNet

-- ============================================================================
-- Where the scanner stands
-- ============================================================================

/-- Where the scanner stands behind a token. -/
inductive Stance where
  /-- Not in an attribute list. -/
  | outside
  /-- In a list, where a key is due. -/
  | key
  /-- Right behind the `:` of a key. -/
  | value
  /-- Right behind a value. -/
  | closing
  /-- Behind a token that is out of place there. -/
  | separator
deriving DecidableEq

/-- The kinds of tokens up to which a value goes. -/
def TokenKind.endsValue : TokenKind → Bool
  | .colon | .lBrace | .rBrace | .endOfLine => true
  | _ => false

namespace Stance

/-- The kinds of tokens that may come next. -/
def admits : Stance → TokenKind → Bool
  | .outside, k => k != .text
  | .key, k => k != .text && !k.isKeyword
  | .value, k => k == .text || k.endsValue
  | .closing, k => k.endsValue
  | .separator, k => k != .text

/-- The stance behind a token. -/
def after : Stance → TokenKind → Stance
  | _, .endOfLine => .outside
  | .outside, .lBrace => .key
  | .outside, _ => .outside
  | _, .rBrace => .outside
  | .key, .colon => .value
  | .key, _ => .key
  | .value, .text => .closing
  | _, .colon => .key
  | _, _ => .separator

/-- The stance in a mode of the scanner, if no value was just read or left out. -/
def ofMode : Token.Mode → Stance
  | .outside => .outside
  | .key => .key
  | .separator => .separator

theorem admits_ofMode (m : Token.Mode) {k : TokenKind} (hk : k ≠ .text) :
    (ofMode m).admits (m.view k) = true := by
  cases m <;> cases k <;> first | rfl | exact absurd rfl hk

/-- A token leads the stance along with the mode, unless it is the `:` behind a key. -/
theorem after_ofMode {m : Token.Mode} {k : TokenKind} (h : ¬(m = .key ∧ k = .colon)) :
    (ofMode m).after k = ofMode (m.after k) := by
  cases m <;> cases k <;> first | rfl | exact absurd ⟨rfl, rfl⟩ h

theorem after_closing (k : TokenKind) : closing.after k = separator.after k := by
  cases k <;> rfl

end Stance

/-- Tokens each of which may come where the scanner stands behind the one before. -/
def Steered : Stance → List TokenKind → Prop
  | _, [] => True
  | stance, k :: ks => stance.admits k = true ∧ Steered (stance.after k) ks

namespace Steered

variable {stance : Stance} {ks js : List TokenKind}

theorem left (h : Steered stance (ks ++ js)) : Steered stance ks := by
  induction ks generalizing stance with
  | nil => trivial
  | cons k ks ih => exact ⟨h.1, ih h.2⟩

/-- The end of a line leads out of a list. -/
theorem behind (h : Steered stance (ks ++ .endOfLine :: js)) : Steered .outside js := by
  induction ks generalizing stance with
  | nil =>
    have hafter : stance.after .endOfLine = .outside := by cases stance <;> rfl
    exact hafter ▸ h.2
  | cons k ks ih => exact ih h.2

/-- A value may be left out. -/
theorem value (h : Steered .closing ks) : Steered .value ks := by
  cases ks with
  | nil => trivial
  | cons k ks =>
    obtain ⟨hadmits, hmore⟩ := h
    refine ⟨?_, ?_⟩
    · show (k == .text || k.endsValue) = true
      rw [show k.endsValue = true from hadmits, Bool.or_true]
    · cases k <;> first | exact hmore | exact absurd hadmits (by decide)

end Steered

namespace Token

/-- Behind a value there is a token up to which it goes. -/
theorem endsValue_of_classify {c : Char} (hc : isValuePart c = false) (tail : List Char) :
    (classify c tail).endsValue = true := by
  have hcases : ((c = ':' ∨ c = '{') ∨ c = '}') ∨ c = '\n' := by
    simpa only [isValuePart, Bool.not_eq_eq_eq_not, Bool.not_false, Bool.or_eq_true, beq_iff_eq]
      using hc
  rcases hcases with ((rfl | rfl) | rfl) | rfl <;> rfl

/-- Blanks are data in a value. -/
theorem isValuePart_of_isSpace {c : Char} (hc : isSpace c = true) : isValuePart c = true := by
  simp only [isSpace, Bool.or_eq_true, beq_iff_eq] at hc
  rcases hc with (rfl | rfl) | rfl <;> rfl

/-- **The scanner's tokens** come as its stance lets them. -/
theorem steered_scanFrom (m : Mode) (offset : Nat) (cs : List Char) :
    Steered (.ofMode m) ((scanFrom m offset cs).map kind) ∧
      (m = .separator → (∀ c ∈ cs.head?, isValuePart c = false) →
        Steered .closing ((scanFrom m offset cs).map kind)) := by
  induction m, offset, cs using scan_induction with
  | nil m offset =>
    rw [scanFrom]
    exact ⟨trivial, fun _ _ => trivial⟩
  | space m offset c cs hspace ih =>
    rw [scanFrom_space offset cs hspace]
    refine ⟨ih.1, fun _ hend => ?_⟩
    exact absurd (hend c rfl) (by simp [isValuePart_of_isSpace hspace])
  | comment m offset cs ih =>
    rw [scanFrom_comment]
    exact ⟨ih.1, fun _ hend => absurd (hend '#' rfl) (by decide)⟩
  | value offset cs ih =>
    rw [scanFrom_value, List.map_cons, List.map_append]
    refine ⟨⟨rfl, ?_⟩, fun hm => absurd hm (by decide)⟩
    have hclosing := ih.2 rfl head_dropWhile
    cases hvalue : cs.takeWhile isValuePart with
    | nil =>
      rw [hvalue] at hclosing
      exact hclosing.value
    | cons c tail =>
      rw [hvalue] at hclosing
      exact ⟨rfl, hclosing⟩
  | lexeme m offset c cs kind hspace hcomment hkind hvalue ih =>
    rw [scanFrom_lexeme offset cs hspace hcomment hkind hvalue, List.map_cons]
    have htext := (classify_ne c (cs.takeWhile (continues c))).1
    refine ⟨⟨?_, ?_⟩, ?_⟩
    · rw [← hkind]
      exact Stance.admits_ofMode m htext
    · rw [Stance.after_ofMode hvalue]
      exact ih.1
    · rintro rfl hend
      refine ⟨?_, ?_⟩
      · rw [← hkind]
        exact endsValue_of_classify (hend c rfl) _
      · rw [Stance.after_closing]
        show Steered ((Stance.ofMode .separator).after kind) _
        rw [Stance.after_ofMode hvalue]
        exact ih.1

end Token

/-- In a text, each line begins outside of attribute lists. -/
theorem steered_linesOf (cs : List Char) : ∀ l ∈ linesOf cs, Steered .outside (kinds l.words) := by
  have hleft : ∀ ss ts : List Shape, Steered .outside ((ss ++ ts).map Prod.fst) →
      Steered .outside (ss.map Prod.fst) := by
    intro ss ts h
    rw [List.map_append] at h
    exact h.left
  have hbehind : ∀ (ss : List Shape) (text : String) (ts : List Shape),
      Steered .outside ((ss ++ (.endOfLine, text) :: ts).map Prod.fst) →
      Steered .outside (ts.map Prod.fst) := by
    intro ss text ts h
    rw [List.map_append] at h
    exact h.behind
  have hwords : Steered .outside (((wordsOf cs).map Word.shape).map Prod.fst) := by
    rw [wordsOf, List.map_map, List.map_map]
    exact (Token.steered_scanFrom .outside 0 cs).1
  intro l hl
  have hline := run_endedLines (P := fun ss => Steered .outside (ss.map Prod.fst)) hleft hbehind
    hwords l hl
  rw [List.map_map] at hline
  exact hline

-- ============================================================================
-- Where the grammar stands
-- ============================================================================

/-- Where in a line, as far as the attribute list goes. -/
inductive Stage where
  /-- Before the list. -/
  | before
  | opened
  | key
  | colon
  | value
  | separator
  | closed
deriving DecidableEq

namespace Stage

/-- How a word of a kind leads on in a line. -/
inductive Step : Stage → TokenKind → Stage → Prop where
  | before {k : TokenKind} (hk : k ≠ .lBrace) : Step .before k .before
  | opening : Step .before .lBrace .opened
  | firstKey : Step .opened .ident .colon
  | closing : Step .opened .rBrace .closed
  | key : Step .key .ident .colon
  | colon : Step .colon .colon .value
  | text : Step .value .text .separator
  | bare : Step .value .colon .key
  | bareClosing : Step .value .rBrace .closed
  | valued : Step .separator .colon .key
  | valuedClosing : Step .separator .rBrace .closed

/-- Where the scanner stands. -/
def stance : Stage → Stance
  | .before | .closed => .outside
  | .opened | .key | .colon => .key
  | .value => .value
  | .separator => .closing

/-- What the words before are like. -/
def Trails (ks : List TokenKind) : Stage → Prop
  | .before => .lBrace ∉ ks
  | .opened => ∃ init, ks = init ++ [.lBrace]
  | .key => ∃ init k, ks = init ++ [k, .colon] ∧ k ≠ .ident
  | .colon => ∃ init, ks = init ++ [.ident]
  | .value => ∃ init, ks = init ++ [.colon]
  | .separator => ∃ init, ks = init ++ [.text]
  | .closed => .rBrace ∈ ks

variable {stage stage' : Stage} {k : TokenKind} {ks : List TokenKind}

/-- The scanner is led along. -/
theorem Step.stance (h : Step stage k stage') : stage'.stance = stage.stance.after k := by
  cases h with
  | before hk => cases k <;> first | rfl | exact absurd rfl hk
  | _ => rfl

theorem Step.trails (h : Step stage k stage') (hks : stage.Trails ks) :
    stage'.Trails (ks ++ [k]) := by
  cases h with
  | before hk =>
    intro hmem
    rcases List.mem_append.mp hmem with hmem | hmem
    · exact hks hmem
    · exact hk (List.mem_singleton.mp hmem).symm
  | opening | firstKey | key | colon | text => exact ⟨ks, rfl⟩
  | bare =>
    obtain ⟨init, rfl⟩ := hks
    exact ⟨init, .colon, by simp, by decide⟩
  | valued =>
    obtain ⟨init, rfl⟩ := hks
    exact ⟨init, .text, by simp, by decide⟩
  | closing | bareClosing | valuedClosing => exact List.mem_append_right ks (by decide)

end Stage

/-- Where in a line a place in an attribute list is. -/
def ListStep.stage : ListStep → Stage
  | .opened => .opened
  | .key => .key
  | .colon _ => .colon
  | .value _ => .value
  | .separator .. => .separator
  | .closed => .closed

def Rule.context {α : Type} : Rule α → Context
  | .fields c .. => c
  | .links c _ => c

namespace Place

variable {α : Type} {p q : Place α} {w : Word}

/-- Where in a line a place is. -/
def stage : Place α → Stage
  | .list _ _ _ step => step.stage
  | _ => .before

/-- A place of a declaration with a context of its own. -/
def HasOwnContext : Place α → Prop
  | .opening c rules => c ≠ .attributes ∧ ∀ r ∈ rules, r.2.context ≠ .attributes
  | .colon c .. | .field c .. | .filled c _ | .link c .. | .list c .. => c ≠ .attributes

theorem ofRule_cases (r : Rule α) : (ofRule r).stage = .before ∧
    (r.context ≠ .attributes → (ofRule r).HasOwnContext) := by
  rcases r with ⟨c, _ | ⟨slot, slots⟩, fill⟩ | ⟨c, join⟩ <;> exact ⟨rfl, id⟩

theorem nextInLink_cases {c : Context} {join : List Link → α} {links : List Link} {step : LinkStep}
    (h : nextInLink c join links w step = some q) :
    Stage.Step .before w.kind q.stage ∧ (c ≠ .attributes → q.HasOwnContext) := by
  cases step with
  | lead | process | atSign p | event p =>
    obtain ⟨hkind, hq⟩ := Option.ite_none_right_eq_some.mp h
    obtain rfl := Option.some.inj hq
    exact ⟨hkind ▸ .before (by decide), id⟩
  | done l =>
    simp only [nextInLink] at h
    split at h
    · next hkind =>
      obtain ⟨-, hq⟩ := Option.ite_none_right_eq_some.mp h
      obtain rfl := Option.some.inj hq
      exact ⟨hkind ▸ .before (by decide), id⟩
    · next hkind =>
      obtain rfl := Option.some.inj h
      exact ⟨hkind ▸ .before (by decide), id⟩
    · next hkind =>
      obtain rfl := Option.some.inj h
      exact ⟨hkind ▸ .opening, id⟩
    · exact absurd h (by simp)

theorem nextInList_cases {c : Context} {a : α} {entries : List Attribute} {step : ListStep}
    (h : nextInList c a entries w step = some q) :
    step.stage.Step w.kind q.stage ∧ (c ≠ .attributes → q.HasOwnContext) := by
  cases step with
  | opened =>
    simp only [nextInList] at h
    split at h
    · next hkind =>
      obtain rfl := Option.some.inj h
      exact ⟨hkind ▸ .firstKey, id⟩
    · next hkind =>
      obtain rfl := Option.some.inj h
      exact ⟨hkind ▸ .closing, id⟩
    · exact absurd h (by simp)
  | key =>
    obtain ⟨hkind, hq⟩ := Option.ite_none_right_eq_some.mp h
    obtain rfl := Option.some.inj hq
    exact ⟨hkind ▸ .key, id⟩
  | colon k =>
    obtain ⟨hkind, hq⟩ := Option.ite_none_right_eq_some.mp h
    obtain rfl := Option.some.inj hq
    exact ⟨hkind ▸ .colon, id⟩
  | value k =>
    simp only [nextInList] at h
    split at h
    · next hkind =>
      obtain rfl := Option.some.inj h
      exact ⟨hkind ▸ .text, id⟩
    · next hkind =>
      obtain rfl := Option.some.inj h
      exact ⟨hkind ▸ .bare, id⟩
    · next hkind =>
      obtain rfl := Option.some.inj h
      exact ⟨hkind ▸ .bareClosing, id⟩
    · exact absurd h (by simp)
  | separator k v =>
    simp only [nextInList] at h
    split at h
    · next hkind =>
      obtain rfl := Option.some.inj h
      exact ⟨hkind ▸ .valued, id⟩
    · next hkind =>
      obtain rfl := Option.some.inj h
      exact ⟨hkind ▸ .valuedClosing, id⟩
    · exact absurd h (by simp)
  | closed => exact absurd h (by simp [nextInList])

/-- **One word.** If it leads from place to place, it leads from stage to stage, and stays in its
declaration. -/
theorem next_cases (h : p.next w = some q) :
    p.stage.Step w.kind q.stage ∧ (p.HasOwnContext → q.HasOwnContext) := by
  cases p with
  | opening c rules =>
    simp only [next] at h
    split at h
    · next k hkind =>
      obtain ⟨r, hlookup, rfl⟩ := Option.map_eq_some_iff.mp h
      obtain ⟨before, after, rfl, -⟩ := List.lookup_eq_some_iff.mp hlookup
      obtain ⟨hstage, hown⟩ := ofRule_cases r
      rw [hstage, hkind]
      exact ⟨.before (by simp), fun hp => hown (hp.2 (k, r) (by simp))⟩
    · exact absurd h (by simp)
  | colon c slot slots fill =>
    obtain ⟨hkind, hq⟩ := Option.ite_none_right_eq_some.mp h
    obtain rfl := Option.some.inj hq
    exact ⟨hkind ▸ .before (by decide), id⟩
  | field c slot slots fill =>
    obtain ⟨hkind, hq⟩ := Option.ite_none_right_eq_some.mp h
    obtain rfl := Option.some.inj hq
    obtain ⟨hstage, hown⟩ := ofRule_cases (.fields c slots (fill w.lexeme))
    have hbrace : w.kind ≠ .lBrace := by
      rw [hkind]
      cases slot <;> decide
    exact ⟨hstage ▸ .before hbrace, hown⟩
  | filled c a =>
    obtain ⟨hkind, hq⟩ := Option.ite_none_right_eq_some.mp h
    obtain rfl := Option.some.inj hq
    exact ⟨hkind ▸ .opening, id⟩
  | link c join links step => exact nextInLink_cases h
  | list c a entries step => exact nextInList_cases h

/-- A place between words that were read and words that the scanner goes on with. -/
structure InStep (p : Place α) (before rest : List Word) : Prop where
  own : p.HasOwnContext
  trails : p.stage.Trails (kinds before)
  steered : Steered p.stage.stance (kinds rest)

theorem InStep.next {before rest : List Word} (hp : p.InStep before (w :: rest))
    (h : p.next w = some q) : q.InStep (before ++ [w]) rest := by
  obtain ⟨hstage, hown⟩ := next_cases h
  refine ⟨hown hp.own, ?_, ?_⟩
  · rw [kinds, List.map_append]
    exact hstage.trails hp.trails
  · rw [hstage.stance]
    exact hp.steered.2

/-- **A reading.** Place and scanner are in step again before the word at which reading stops. -/
theorem InStep.read {before ws : List Word} (hp : p.InStep before ws) :
    (p.read ws).place.InStep (before ++ (p.read ws).words) (p.read ws).rest := by
  induction ws generalizing p before with
  | nil => rwa [Place.read, List.append_nil]
  | cons w ws ih =>
    cases hnext : p.next w with
    | none => rwa [read_cons_of_none hnext, List.append_nil]
    | some q =>
      have hmore := ih (hp.next hnext)
      rw [List.append_assoc] at hmore
      rwa [read_cons_of_some hnext]

end Place

-- ============================================================================
-- Faults
-- ============================================================================

/-- Words that end behind the `:` of a key or its value, in a list that is not closed. -/
def BehindKey (ks : List TokenKind) : Prop :=
  .lBrace ∈ ks ∧ .rBrace ∉ ks ∧ ([.ident, .colon] <:+ ks ∨ [.ident, .colon, .text] <:+ ks)

namespace Stage

variable {stage : Stage} {k : TokenKind}

/-- A value comes only behind the `:` of a key. -/
theorem eq_value_of_admits (h : stage.stance.admits .text = true) : stage = .value := by
  cases stage <;> first | rfl | exact absurd h (by decide)

/-- There are no keywords in a list. -/
theorem isKeyword_of_meets (hbefore : stage ≠ .before) (hclosed : stage ≠ .closed)
    (h : k.endsDeclaration = true ∨ stage.stance.admits k = true) : k.isKeyword = false := by
  cases k with
  | keyword c =>
    have hadmits := h.resolve_left (by simp [TokenKind.endsDeclaration])
    cases stage <;> first | exact absurd hadmits (by decide) | contradiction
  | _ => rfl

/-- Behind the `:` of a key there is its value, or what a value goes up to. -/
theorem mem_of_meets (hstage : stage = .value ∨ stage = .separator)
    (h : k.endsDeclaration = true ∨ stage.stance.admits k = true) (htext : k ≠ .text)
    (hk : k ≠ .colon ∧ k ≠ .rBrace) : k ∈ [TokenKind.lBrace, .endOfLine, .endOfFile] := by
  have hends : k.endsDeclaration = true ∨ k.endsValue = true := by
    refine h.imp id fun hadmits => ?_
    rcases hstage with rfl | rfl
    · rcases Bool.or_eq_true _ _ |>.mp hadmits with hvalue | hends
      · exact absurd (beq_iff_eq.mp hvalue) htext
      · exact hends
    · exact hadmits
  cases k <;> simp_all [TokenKind.endsDeclaration, TokenKind.endsValue]

/-- How words end tells the stages of an open list apart. -/
theorem Trails.behindKey {ks : List TokenKind} (h : stage.Trails ks) (hks : BehindKey ks) :
    stage = .value ∨ stage = .separator := by
  obtain ⟨hopen, hclosed, hend⟩ := hks
  have hlast : ∃ init, ks.reverse = .colon :: .ident :: init ∨
      ks.reverse = .text :: .colon :: .ident :: init := by
    rcases hend with ⟨init, rfl⟩ | ⟨init, rfl⟩
    · exact ⟨init.reverse, Or.inl (by simp)⟩
    · exact ⟨init.reverse, Or.inr (by simp)⟩
  obtain ⟨init', hlast⟩ := hlast
  cases stage with
  | before => exact absurd hopen h
  | closed => exact absurd h hclosed
  | value => exact Or.inl rfl
  | separator => exact Or.inr rfl
  | opened | colon =>
    obtain ⟨init, rfl⟩ := h
    simp at hlast
  | key =>
    obtain ⟨init, k, rfl, hk⟩ := h
    simp [hk] at hlast

end Stage

/-- A fault that the scanner does not bring about: it does not put a value where none may stand, nor
a keyword where a key is due, and behind the `:` of a key it gives nothing that is out of place but
another `{` or the end of the line or text. -/
structure Fault.IsInStep (f : Fault) (l : Line) (before : List Word) : Prop where
  stands : before ++ [f.found] <+: l.words ++ [l.stop]
  noValue : f.found.kind ≠ .text
  noKeyword : f.context = .attributes → f.found.kind.isKeyword = false
  behindKey : BehindKey (kinds before) →
    f.context = .attributes ∧ f.found.kind ∈ [.lBrace, .endOfLine, .endOfFile]

namespace Place

variable {α : Type} {p : Place α} {k : TokenKind}

/-- Inside of a list, faults are faults in it. -/
theorem context_iff (hp : p.HasOwnContext) :
    p.context = .attributes ↔ p.stage ≠ .before ∧ p.stage ≠ .closed := by
  cases p with
  | opening c rules => exact iff_of_false hp.1 fun h => h.1 rfl
  | list c a entries step =>
    cases step with
    | closed => exact iff_of_false hp fun h => h.2 rfl
    | _ => exact iff_of_true rfl ⟨by simp [stage, ListStep.stage], by simp [stage, ListStep.stage]⟩
  | _ => exact iff_of_false hp fun h => h.1 rfl

/-- Behind the `:` of a key a list may go on, or end. -/
theorem expected_behindKey (p : Place α) :
    (p.stage = .value → p.expected = [.text, .colon, .rBrace]) ∧
      (p.stage = .separator → p.expected = [.colon, .rBrace]) := by
  cases p with
  | list c a entries step => cases step <;> simp [stage, ListStep.stage, expected]
  | _ => simp [stage]

/-- Reading stops at a word that the scanner gives there, or at the end of the line or text. -/
theorem InStep.meets {before : List Word} {l : Line} (hp : p.InStep before l.words)
    (hstop : l.stop.kind.endsDeclaration = true) :
    ((p.read l.words).stop l.stop).kind.endsDeclaration = true ∨
      (p.read l.words).place.stage.stance.admits ((p.read l.words).stop l.stop).kind = true := by
  have hsteered := hp.read.steered
  rw [Reading.stop]
  cases hrest : (p.read l.words).rest with
  | nil => exact Or.inl hstop
  | cons w more =>
    rw [hrest] at hsteered
    exact Or.inr hsteered.1

/-- **A fault is in step.** The word at which reading fails is one that the scanner may give where
it stands then. -/
theorem isInStep_of_outcome {l : Line} {f : Fault} (hp : p.InStep [] l.words)
    (hline : InLine l.words) (hstop : l.stop.kind.endsDeclaration = true)
    (h : (p.read l.words).outcome l.stop = .error f) : f.IsInStep l (p.read l.words).words := by
  have hmisfit := found_notMem_expected hline hstop h
  have hmeets := hp.meets hstop
  have hplace := hp.read
  have hcontext := context_iff hplace.own
  obtain ⟨rfl, -⟩ := Reading.outcome_eq_error_iff.mp h
  dsimp only at hmisfit
  generalize hk : ((p.read l.words).stop l.stop).kind = k at hmisfit hmeets
  have hnoValue : k ≠ .text := by
    rintro rfl
    have hvalue := Stage.eq_value_of_admits (hmeets.resolve_left (by decide))
    exact hmisfit (by simp [(expected_behindKey _).1 hvalue])
  refine ⟨p.read_stands l, fun htext => hnoValue (hk.symm.trans htext), fun hlist => ?_,
    fun hkey => ?_⟩
  · obtain ⟨hbefore, hclosed⟩ := hcontext.mp hlist
    show ((p.read l.words).stop l.stop).kind.isKeyword = false
    rw [hk]
    exact Stage.isKeyword_of_meets hbefore hclosed hmeets
  · have hstage := hplace.trails.behindKey hkey
    have hnotEnd : k ≠ .colon ∧ k ≠ .rBrace := by
      rcases hstage with hvalue | hseparator
      · rw [(expected_behindKey _).1 hvalue] at hmisfit
        simp_all
      · rw [(expected_behindKey _).2 hseparator] at hmisfit
        simp_all
    refine ⟨hcontext.mpr ?_, ?_⟩
    · rcases hstage with hstage | hstage <;> rw [hstage] <;> decide
    · show ((p.read l.words).stop l.stop).kind ∈ _
      rw [hk]
      exact Stage.mem_of_meets hstage hmeets hnoValue hnotEnd

end Place
end TimedNet
