/-
  TimedNet.Proofs.Session.Messages

  What messages quote, and how they are rendered. A message is made up of fixed words, numbers, and
  texts that stand in it as they are; it has a newline exactly if one of these texts does
  (`Problem.newline_mem_message`). What is said about a line quotes its words, and what ends the line
  only if that is no token (`Reachable.quotes_enter`). Of all tokens of a text only the ends of lines
  have a newline (`Token.newline_notMem_text`), so no message does (`newline_notMem_of_parse`), and
  what is rendered has one line for each diagnostic (`render_line_by_line`).
-/
import TimedNet.Proofs.Session.OneLine
import TimedNet.Proofs.Session.Redeclarations
import TimedNet.Proofs.Text.Numerals
import TimedNet.Proofs.Token.Windows

namespace TimedNet

-- ============================================================================
-- Printed texts
-- ============================================================================

section Printed

/-- The digits of a number have no newline. -/
@[simp] theorem newline_notMem_toDigits (n : Nat) : '\n' ∉ Nat.toDigits 10 n := fun h =>
  absurd (Numeral.isDigit_of_mem_toDigits h) (by decide)

@[simp] theorem newline_notMem_repr (i : Int) : '\n' ∉ i.repr.toList := by
  rw [← Int.toString_eq_repr]
  cases i with
  | ofNat n =>
    rw [Numeral.toList_toString_nonneg]
    exact newline_notMem_toDigits n
  | negSucc n =>
    rw [Numeral.toList_toString_neg, List.mem_cons, not_or]
    exact ⟨by decide, newline_notMem_toDigits (n + 1)⟩

/-- A printed position has no newline. -/
@[simp] theorem Position.newline_notMem_text (p : Position) : '\n' ∉ p.text.toList := by
  simp [Position.text]

/-- A printed span has no newline. -/
theorem Span.newline_notMem_text (s : Span) : '\n' ∉ s.text.toList := by
  unfold Span.text
  split
  · simp
  · split
    · split <;> simp
    · simp

/-- The name of a kind has no newline. -/
@[simp] theorem Kind.newline_notMem_text (k : Kind) : '\n' ∉ k.text.toList := by
  cases k <;> decide

@[simp] theorem Kind.newline_notMem_noun (k : Kind) : '\n' ∉ k.noun.toList := by
  cases k <;> decide

@[simp] theorem Kind.newline_notMem_withArticle (k : Kind) : '\n' ∉ k.withArticle.toList := by
  cases k <;> decide

@[simp] theorem TokenKind.newline_notMem_name (k : TokenKind) : '\n' ∉ k.name.toList := by
  cases k with
  | keyword k => cases k <;> decide
  | _ => decide

theorem newline_notMem_intercalate {s : String} (hs : '\n' ∉ s.toList) {ts : List String}
    (hts : ∀ t ∈ ts, '\n' ∉ t.toList) : '\n' ∉ (String.intercalate s ts).toList := by
  induction ts with
  | nil =>
    rw [String.intercalate_nil]
    decide
  | cons t ts ih =>
    obtain ⟨ht, hts⟩ := List.forall_mem_cons.mp hts
    cases ts with
    | nil => rwa [String.intercalate_singleton]
    | cons u ts =>
      rw [String.intercalate_cons_cons, String.toList_append, String.toList_append]
      simp only [List.mem_append, not_or]
      exact ⟨⟨ht, hs⟩, ih hts⟩

end Printed

-- ============================================================================
-- Messages
-- ============================================================================

/-- The texts that stand in a message as they are. -/
def StoreError.quoted : StoreError → List String
  | .duplicate name _ => [name]
  | _ => []

namespace Problem

/-- The texts that stand in the message of a problem as they are. Of the tokens that were not
expected, only an invalid one is quoted. -/
def quoted : Problem → List String
  | .unexpected found text _ => if found = .invalid then [text] else []
  | .redeclared _ name => [name]
  | .redeclaredLocation name process => [name, process]
  | .variableClash name _ => [name]
  | .zeroSize _ name => [name]
  | .refused _ reason => reason.quoted
  | .undeclaredProcess name => [name]
  | .undeclaredLocation name process => [name, process]
  | .undeclaredEvent name => [name]
  | .signedRange error => [error.literal]
  | .unsignedRange error => [error.literal]
  | .initialBounds name _ _ _ => [name]
  | .tooManyErrors _ => []

/-- **One message.** A message has a newline exactly if a text has one that it quotes. -/
theorem newline_mem_message {p : Problem} :
    '\n' ∈ p.message.toList ↔ ∃ t ∈ p.quoted, '\n' ∈ t.toList := by
  unfold message
  cases p with
  | unexpected found text expected =>
    have hnames : '\n' ∉ (String.intercalate " or " (expected.map TokenKind.name)).toList := by
      apply newline_notMem_intercalate (by decide)
      intro t ht
      obtain ⟨k, -, rfl⟩ := List.mem_map.mp ht
      exact k.newline_notMem_name
    dsimp only [foundName]
    generalize String.intercalate " or " (expected.map TokenKind.name) = names at hnames
    by_cases hfound : found = .invalid <;> simp [quoted, hfound, hnames]
  | refused kind reason =>
    unfold StoreError.message
    cases reason <;> simp [quoted, StoreError.quoted]
  | _ => simp [quoted, OutOfRange.message]

end Problem

/-- A message tells of a problem that quotes certain texts only. -/
def Diagnostic.Quotes (Q : String → Prop) (d : Diagnostic) : Prop :=
  ∃ p : Problem, d.message = p.message ∧ ∀ t ∈ p.quoted, Q t

namespace Diagnostic.Quotes

variable {Q R : String → Prop} {d : Diagnostic}

theorem imp (h : d.Quotes Q) (hQ : ∀ t, Q t → R t) : d.Quotes R := by
  obtain ⟨p, hp, hquoted⟩ := h
  exact ⟨p, hp, fun t ht => hQ t (hquoted t ht)⟩

theorem newline_notMem (h : d.Quotes fun t => '\n' ∉ t.toList) : '\n' ∉ d.message.toList := by
  obtain ⟨p, hp, hquoted⟩ := h
  rw [hp, Problem.newline_mem_message]
  rintro ⟨t, ht, hmem⟩
  exact hquoted t ht hmem

end Diagnostic.Quotes

-- ============================================================================
-- Conditions
-- ============================================================================

/-- The texts that the error of a condition quotes. -/
def Condition.quoted : Condition → List String
  | .free _ _ name => [name.text]
  | .freeIn owner name => [name.text, owner.text]
  | .sized _ _ name => [name.text]
  | .bounded _ _ _ name => [name.text]
  | .process name => [name.text]
  | .location owner name => [name.text, owner.text]
  | .event name => [name.text]
  | .present (.name _ text) _ => [text]
  | .present _ _ => []

section Conditions

variable {s : Store} {d : Diagnostic} {φ : Phrase}

theorem Condition.quotes_of_tells {c : Condition} (h : c.Tells s d) :
    d.Quotes (· ∈ c.quoted) := by
  cases c with
  | free scope kind name =>
    obtain ⟨e, -, -, rfl⟩ := h
    refine ⟨.ofVariable kind name.text e.kind, rfl, fun t ht => ?_⟩
    unfold Problem.ofVariable at ht
    split at ht <;> exact ht
  | freeIn owner name =>
    obtain ⟨p, -, e, -, -, rfl⟩ := h
    exact ⟨.redeclaredLocation name.text owner.text, rfl, fun t ht => ht⟩
  | sized size kind name =>
    obtain rfl := h
    exact ⟨.zeroSize kind name.text, rfl, fun t ht => ht⟩
  | bounded min max initial name =>
    obtain ⟨lo, hi, v, -, -, -, rfl⟩ := h
    exact ⟨.initialBounds name.text lo hi v, rfl, fun t ht => ht⟩
  | process name =>
    obtain rfl := h
    exact ⟨.undeclaredProcess name.text, rfl, fun t ht => ht⟩
  | location owner name =>
    obtain rfl := h
    exact ⟨.undeclaredLocation name.text owner.text, rfl, fun t ht => ht⟩
  | event name =>
    obtain rfl := h
    exact ⟨.undeclaredEvent name.text, rfl, fun t ht => ht⟩
  | present check span =>
    obtain ⟨reason, hreason, rfl⟩ := h
    refine ⟨.refused .sync reason, rfl, fun t ht => ?_⟩
    cases check with
    | name scope text =>
      obtain ⟨e, -, -, rfl⟩ := hreason
      exact ht
    | _ =>
      rw [Check.Tells] at hreason
      subst hreason
      exact absurd ht List.not_mem_nil

/-- What the conditions of a phrase quote was read off the line. -/
theorem quoted_of_mem_conditions {as : Attributes} {span : Span} {c : Condition}
    (hc : c ∈ Draft.conditions ⟨φ.draft s, as, span⟩) :
    ∀ t ∈ c.quoted, ∃ x ∈ φ.lexemes, x.text = t := by
  cases φ with
  | sync links =>
    -- the checks of a synchronization are about no names
    obtain ⟨check, hcheck, rfl⟩ := List.mem_map.mp hc
    obtain ⟨constraint, -, hpair⟩ := List.mem_flatMap.mp hcheck
    rcases List.mem_pair.mp hpair with rfl | rfl <;>
      exact fun t ht => absurd ht List.not_mem_nil
  | _ =>
    simp only [Phrase.draft, Draft.conditions, List.mem_cons, List.not_mem_nil, or_false] at hc
    rcases hc with rfl | rfl | rfl | rfl <;> simp [Condition.quoted, Phrase.lexemes]

end Conditions

-- ============================================================================
-- Lines
-- ============================================================================

/-- The texts that can be quoted of a line: its words, and what ends it if that is no token. -/
def IsQuotable (close : Word) (ws : List Word) (t : String) : Prop :=
  (∃ w ∈ ws, w.text = t) ∨ close.kind = .invalid ∧ close.text = t

/-- A fault quotes the word that does not fit. -/
theorem Fault.quotes_of_outcome {α : Type} {p : Place α} {close : Word} {ws : List Word} {f : Fault}
    (h : (p.read ws).outcome close = .error f) : f.diagnostic.Quotes (IsQuotable close ws) := by
  refine ⟨.unexpected f.found.kind f.found.text f.expected, rfl, fun t ht => ?_⟩
  have hquoted : t ∈ if f.found.kind = .invalid then [f.found.text] else [] := ht
  split at hquoted
  · next hinvalid =>
    obtain rfl := List.mem_singleton.mp hquoted
    have hstop := p.stop_mem close ws
    rw [← Reading.found_of_outcome h] at hstop
    rcases List.mem_cons.mp hstop with hclose | hword
    · exact Or.inr ⟨hclose ▸ hinvalid, hclose ▸ rfl⟩
    · exact Or.inl ⟨f.found, hword, rfl⟩
  · exact absurd hquoted List.not_mem_nil

namespace Store

variable {s : Store}

/-- A note on a part quotes it. -/
theorem quotes_of_note {part : Part} {d : Diagnostic} (h : part.note? s = some d) :
    d.Quotes fun t => ∃ x ∈ part.lexemes, x.text = t := by
  cases part with
  | size l =>
    rcases Numeral.unsigned_cases l.text with ⟨v, hread⟩ | hread
    · simp [Part.note?, hread] at h
    · simp only [Part.note?, hread] at h
      obtain rfl := Option.some.inj h
      refine ⟨.unsignedRange ⟨l.text, 0, 2 ^ 32 - 1⟩, rfl, fun t ht => ?_⟩
      exact ⟨l, List.mem_singleton_self l, (List.mem_singleton.mp ht).symm⟩
  | bound l =>
    rcases Numeral.signed_cases l.text with ⟨v, hread⟩ | hread
    · simp [Part.note?, hread] at h
    · simp only [Part.note?, hread] at h
      obtain rfl := Option.some.inj h
      refine ⟨.signedRange ⟨l.text, -2 ^ 31, 2 ^ 31 - 1⟩, rfl, fun t ht => ?_⟩
      exact ⟨l, List.mem_singleton_self l, (List.mem_singleton.mp ht).symm⟩
  | link owner label =>
    simp only [Part.note?] at h
    split at h
    · obtain rfl := Option.some.inj h
      refine ⟨.undeclaredProcess owner.text, rfl, fun t ht => ?_⟩
      exact ⟨owner, by simp [Part.lexemes], (List.mem_singleton.mp ht).symm⟩
    · split at h
      · obtain rfl := Option.some.inj h
        refine ⟨.undeclaredEvent label.text, rfl, fun t ht => ?_⟩
        exact ⟨label, by simp [Part.lexemes], (List.mem_singleton.mp ht).symm⟩
      · exact absurd h (by simp)

/-- A problem with bounds quotes the name of the variable. -/
theorem quotes_of_checkBounds {φ : Phrase} {check : BoundsCheck} {d : Diagnostic}
    (h : (φ.draft s).checkBounds check = .ok (some d)) :
    d.Quotes fun t => ∃ x ∈ φ.lexemes, x.text = t := by
  obtain ⟨e, he, hd⟩ := DraftItem.boundsProblem_of_checkBounds (Or.inr h)
  obtain ⟨size, min, max, initial, name, lo, hi, v, hint, -, -, -, rfl⟩ :=
    DraftItem.exists_int_of_boundsProblem he
  refine ⟨.initialBounds name.text lo hi v, by rw [hd]; rfl, fun t ht => ?_⟩
  obtain rfl := List.mem_singleton.mp ht
  cases φ with
  | int size' min' max' initial' name' =>
    obtain ⟨-, -, -, -, rfl⟩ := DraftItem.int.inj hint
    exact ⟨name', by simp [Phrase.lexemes], rfl⟩
  | _ => exact absurd hint (by simp [Phrase.draft])

/-- **One line.** Whatever is said about it quotes nothing else. -/
theorem Reachable.quotes_enter (hs : s.Reachable) (check : BoundsCheck) (close : Word)
    (ws : List Word) :
    ∀ d ∈ (s.enter check close ws).diagnostics, d.Quotes (IsQuotable close ws) := by
  -- what quotes lexemes of the line quotes its words
  have hline : ∀ {xs : List Lexeme} {d : Diagnostic}, (∀ x ∈ xs, ∃ w ∈ ws, w.lexeme = x) →
      d.Quotes (fun t => ∃ x ∈ xs, x.text = t) → d.Quotes (IsQuotable close ws) := by
    intro xs d hxs hd
    apply hd.imp
    rintro t ⟨x, hx, rfl⟩
    obtain ⟨w, hw, rfl⟩ := hxs x hx
    exact Or.inl ⟨w, hw, rfl⟩
  intro d hd
  rcases hs.tells_of_enter hd with ⟨part, hpart, hnote⟩ | ⟨f, houtcome, rfl⟩ |
    ⟨φ, as, houtcome, ⟨c, hc, htells⟩ | hbounds⟩
  · exact hline (exists_word_of_part part hpart) (quotes_of_note hnote)
  · exact Fault.quotes_of_outcome houtcome
  · apply hline (exists_word_of_outcome houtcome)
    exact (Condition.quotes_of_tells htells).imp (quoted_of_mem_conditions hc)
  · exact hline (exists_word_of_outcome houtcome) (quotes_of_checkBounds hbounds)

end Store

-- ============================================================================
-- Texts
-- ============================================================================

/-- No word of a text has a newline, unless it ends a line. -/
theorem newline_notMem_wordsOf (source : String) :
    ∀ w ∈ wordsOf source.toList, w.kind ≠ .endOfLine → '\n' ∉ w.text.toList := by
  intro w hw hkind
  obtain ⟨t, ht, rfl⟩ := List.mem_map.mp hw
  exact Token.newline_notMem_text ht hkind

/-- What can be quoted of a line of a text has no newline. -/
theorem newline_notMem_of_isQuotable {source : String} {l : Line}
    (hl : l ∈ linesOf source.toList ∨ l = ⟨[], endOf source.toList⟩) {t : String}
    (ht : IsQuotable l.stop l.words t) : '\n' ∉ t.toList := by
  have hend : (endOf source.toList).kind ≠ .endOfLine →
      '\n' ∉ (endOf source.toList).text.toList := fun _ => List.not_mem_nil
  rcases hl with hl | rfl
  · obtain ⟨hstop, hwords⟩ := List.forall_mem_cons.mp
      (forall_endedLines hend (newline_notMem_wordsOf source) l hl)
    rcases ht with ⟨w, hw, rfl⟩ | ⟨hinvalid, rfl⟩
    · exact hwords w hw ((isOneRow_linesOf source.toList l hl).kind_ne_endOfLine w hw)
    · exact hstop (by simp [hinvalid])
  · rcases ht with ⟨w, hw, -⟩ | ⟨-, rfl⟩
    · exact absurd hw List.not_mem_nil
    · exact hend (by simp [endOf, Token.word, Token.endOfFile])

/-- **All messages.** No message has a newline, whatever the text and the options. -/
theorem newline_notMem_of_parse (source : String) (options : Options) :
    ∀ d ∈ (parse source options).diagnostics, '\n' ∉ d.message.toList := by
  intro d hd
  apply Diagnostic.Quotes.newline_notMem
  rcases diagnostics_cases source options with ⟨l, f, hl, houtcome, hsaid⟩ |
    ⟨first, upper, lower, last, hlines, hsaid, hlast⟩
  · rw [hsaid] at hd
    obtain rfl := List.mem_singleton.mp hd
    exact (Fault.quotes_of_outcome houtcome).imp fun t => newline_notMem_of_isQuotable hl
  · rw [hsaid] at hd
    rcases List.mem_append.mp hd with hd | hd
    · obtain ⟨above, l, below, rfl, hl⟩ := Store.exists_line_of_said hd
      have hreach := Store.Reachable.empty.enterLines options.boundsCheck above
      have hmem : l ∈ linesOf source.toList := by simp [hlines]
      exact (hreach.quotes_enter options.boundsCheck l.stop l.words d hl).imp fun t =>
        newline_notMem_of_isQuotable (Or.inl hmem)
    · rcases hlast with rfl | hgave
      · exact absurd hd List.not_mem_nil
      · obtain ⟨count, rfl⟩ := hgave.said
        obtain rfl := List.mem_singleton.mp hd
        exact ⟨.tooManyErrors count, rfl, fun t ht => absurd ht List.not_mem_nil⟩

-- ============================================================================
-- Rendering
-- ============================================================================

/-- A rendered diagnostic is the name of the source with a `:`, if there is one, the span, a blank
and the message. -/
theorem Diagnostic.render_eq (name : Option String) (d : Diagnostic) :
    d.render name = (name.map (· ++ ":")).getD "" ++ (d.span.text ++ " " ++ d.message) := by
  cases name with
  | none => rw [Option.map_none, Option.getD_none, String.empty_append]; rfl
  | some name => rfl

theorem Diagnostic.newline_notMem_render {name : Option String}
    (hname : ∀ n ∈ name, '\n' ∉ n.toList) {d : Diagnostic} (hd : '\n' ∉ d.message.toList) :
    '\n' ∉ (d.render name).toList := by
  have hspan := d.span.newline_notMem_text
  rw [d.render_eq]
  cases name with
  | none => simp [hspan, hd]
  | some name => simp [hname name rfl, hspan, hd]

/-- **One line for each diagnostic.** If the name of the source has no newline, what is rendered
falls at its newlines into the rendered diagnostics, in order. No message has a newline, whatever
it quotes. -/
theorem render_line_by_line (source : String) {options : Options}
    (hname : ∀ name ∈ options.sourceName, '\n' ∉ name.toList) :
    let p := parse source options
    (p.render.split '\n').toList.map (·.copy) =
        (if p.diagnostics = [] then [""]
          else p.diagnostics.map (Diagnostic.render options.sourceName)) ∧
      (p.diagnostics = [] → p.render = "") ∧
      ∀ d ∈ p.diagnostics,
        d.render options.sourceName =
            (options.sourceName.map (· ++ ":")).getD "" ++ (d.span.text ++ " " ++ d.message) ∧
          '\n' ∉ d.message.toList := by
  intro p
  have hmessages := newline_notMem_of_parse source options
  refine ⟨?_, fun hnone => ?_, fun d hd => ⟨d.render_eq _, hmessages d hd⟩⟩
  · have hlines : ∀ s ∈ p.diagnostics.map (Diagnostic.render options.sourceName),
        '\n' ∉ s.toList := by
      intro s hs
      obtain ⟨d, hd, rfl⟩ := List.mem_map.mp hs
      exact Diagnostic.newline_notMem_render hname (hmessages d hd)
    have hsplit := String.toList_split_intercalate hlines
    simp only [List.map_eq_nil_iff] at hsplit
    exact hsplit
  · rw [Parsed.render, hnone]
    rfl

/-- Three lines that are wrong, each in its own way. -/
def namedSample : String := "system:s\nprocess:P\nprocess:P\nclock:$:x\nsync:Q@e\n"

/-- Options of a text that has a name. -/
def namedOptions : Options := { sourceName := some "net.tck" }

theorem render_line_by_line_namedSample :
    (∀ name ∈ namedOptions.sourceName, '\n' ∉ name.toList) ∧
    ((parse namedSample namedOptions).render.split '\n').toList.map (·.copy) =
      ["net.tck:3.9 multiple declarations of process P",
        "net.tck:4.7 syntax error, unexpected invalid token \"$\", expecting integer value",
        "net.tck:5.6 process Q is not declared"] := by
  have hname : ∀ name ∈ namedOptions.sourceName, '\n' ∉ name.toList := by decide
  exact ⟨hname, (render_line_by_line namedSample hname).1.trans (by decide +kernel)⟩

end TimedNet
