/-
  TimedNet.Proofs.Token.Lexical

  What the tokens of a text look like. An identifier is spelled as a name, and outside of attribute
  lists it is no keyword; an attribute value has none of the characters that end one. `Lexical`
  collects this for a run of tokens, and the tokens that are scanned from a text have it
  (`lexical_scanFrom`).
-/
import Mathlib.Data.List.TakeWhile
import TimedNet.Token.Scan
import TimedNet.Grammar.Word

namespace TimedNet

-- ============================================================================
-- Names and values
-- ============================================================================

/-- A letter or `_`, followed by characters that continue a name. -/
def IsWord (text : String) : Prop :=
  ∃ c tail, text = String.ofList (c :: tail) ∧ Token.isNameStart c = true ∧
    ∀ d ∈ tail, Token.isNamePart d = true

/-- A word that spells no keyword. -/
def IsName (text : String) : Prop := IsWord text ∧ Keyword.ofText? text = none

/-- Characters that may stand in the value of an attribute. -/
def IsRawValue (text : String) : Prop := ∀ c ∈ text.toList, Token.isValuePart c = true

-- ============================================================================
-- Runs of tokens
-- ============================================================================

/-- The kind and the text of a token, without its place. -/
abbrev Shape := TokenKind × String

def Token.shape (t : Token) : Shape := (t.kind, t.text)

def Word.shape (w : Word) : Shape := (w.kind, w.text)

/-- Whether a run of tokens is still outside of attribute lists behind a token of a kind. Only the
end of a line surely leads out of a list. -/
def isOutsideAfter (outside : Bool) : TokenKind → Bool
  | .endOfLine => true
  | .lBrace => false
  | _ => outside

/-- What the kind of a token tells of its text; `outside` says that no attribute list is open. -/
structure IsToken (outside : Bool) (kind : TokenKind) (text : String) : Prop where
  inText : kind ≠ .endOfFile
  word : kind = .ident → IsWord text
  noKeyword : kind = .ident → outside = true → Keyword.ofText? text = none
  value : kind = .text → IsRawValue text

/-- Tokens whose texts go with their kinds. -/
def Lexical : Bool → List Shape → Prop
  | _, [] => True
  | outside, (kind, text) :: rest =>
    IsToken outside kind text ∧ Lexical (isOutsideAfter outside kind) rest

/-- Less is known about tokens that may stand in a list. -/
theorem Lexical.mono {outside outside' : Bool} (h : outside' = true → outside = true)
    {ss : List Shape} (hss : Lexical outside ss) : Lexical outside' ss := by
  induction ss generalizing outside outside' with
  | nil => trivial
  | cons s ss ih =>
    obtain ⟨kind, text⟩ := s
    obtain ⟨htoken, hrest⟩ := hss
    refine ⟨{ htoken with noKeyword := fun hk ho => htoken.noKeyword hk (h ho) }, ih ?_ hrest⟩
    cases kind <;> simp_all [isOutsideAfter]

theorem lexical_append {outside : Bool} {ss ts : List Shape} (h : Lexical outside (ss ++ ts)) :
    Lexical false ts := by
  induction ss generalizing outside with
  | nil => exact h.mono (by simp)
  | cons s ss ih => exact ih h.2

-- ============================================================================
-- Scanned tokens
-- ============================================================================

namespace Token

open Text (width)

theorem symbol_ne (c : Char) :
    symbol c ≠ .ident ∧ symbol c ≠ .text ∧ symbol c ≠ .endOfFile ∧ ∀ k, symbol c ≠ .keyword k := by
  unfold symbol
  split <;> simp

/-- Only a word can be an identifier or a keyword. -/
theorem isNameStart_of_classify {c : Char} {tail : List Char}
    (h : classify c tail = .ident ∨ ∃ k, classify c tail = .keyword k) : isNameStart c = true := by
  obtain ⟨hident, -, -, hkeyword⟩ := symbol_ne c
  rw [← Bool.not_eq_false]
  intro hstart
  simp only [classify, hstart, Bool.false_eq_true, if_false] at h
  split at h
  · simp at h
  · rcases h with h | ⟨k, h⟩
    · exact hident h
    · exact hkeyword k h

/-- No lexeme by itself is the value of an attribute or the end of the text. -/
theorem classify_ne (c : Char) (tail : List Char) :
    classify c tail ≠ .text ∧ classify c tail ≠ .endOfFile := by
  obtain ⟨-, htext, hend, -⟩ := symbol_ne c
  unfold classify
  split
  · split <;> simp
  · split
    · simp
    · exact ⟨htext, hend⟩

theorem view_eq_ident {m : Mode} {k : TokenKind} (h : m.view k = .ident) :
    k = .ident ∨ (m = .key ∧ ∃ c, k = .keyword c) := by
  cases m <;> cases k <;> simp_all [Mode.view]

theorem view_ne {m : Mode} {k : TokenKind} (h : k ≠ .text ∧ k ≠ .endOfFile) :
    m.view k ≠ .text ∧ m.view k ≠ .endOfFile := by
  cases m <;> cases k <;> simp_all [Mode.view]

/-- An identifier is spelled as a name. -/
theorem isWord_of_view {m : Mode} {c : Char} {cs : List Char}
    (h : m.view (classify c (cs.takeWhile (continues c))) = .ident) :
    IsWord (String.ofList (c :: cs.takeWhile (continues c))) := by
  have hstart : isNameStart c = true :=
    isNameStart_of_classify ((view_eq_ident h).imp id And.right)
  refine ⟨c, _, rfl, hstart, fun d hd => ?_⟩
  have hd' := List.mem_takeWhile_imp hd
  simpa [continues, hstart] using hd'

theorem eq_colon_of_view {m : Mode} {c : Char} {tail : List Char}
    (h : m.view (classify c tail) = .colon) : c = ':' := by
  have hclass : classify c tail = .colon := by
    cases m <;> cases hk : classify c tail <;> simp_all [Mode.view]
  unfold classify at hclass
  split at hclass
  · split at hclass <;> simp at hclass
  · split at hclass
    · simp at hclass
    · unfold symbol at hclass
      split at hclass <;> simp_all

/-- Where keywords are told apart, an identifier is none. -/
theorem ofText?_of_view {m : Mode} (hm : m ≠ .key) {c : Char} {tail : List Char}
    (h : m.view (classify c tail) = .ident) :
    Keyword.ofText? (String.ofList (c :: tail)) = none := by
  rcases view_eq_ident h with hident | ⟨hkey, -⟩
  · have hstart := isNameStart_of_classify (Or.inl hident)
    simp only [classify, hstart, if_true] at hident
    split at hident
    · exact absurd hident (by simp)
    · next hnone => exact hnone
  · exact absurd hkey hm

theorem isOutsideAfter_le (m : Mode) (k : TokenKind) :
    isOutsideAfter (decide (m = .outside)) k = true → decide (m.after k = .outside) = true := by
  cases m <;> cases k <;> simp [isOutsideAfter, Mode.after]

/-- The token of a value, if it is not empty. -/
def valueShapes : List Char → List Shape
  | [] => []
  | cs => [(.text, String.ofList cs)]

theorem map_shape_ofValue (offset : Nat) (cs : List Char) :
    (ofValue offset cs).map shape = valueShapes cs := by
  cases cs <;> rfl

theorem lexical_valueShapes {cs : List Char} (h : ∀ c ∈ cs, isValuePart c = true)
    {ss : List Shape} (hss : Lexical false ss) : Lexical false (valueShapes cs ++ ss) := by
  cases cs with
  | nil => exact hss
  | cons c cs =>
    refine ⟨⟨by simp, by simp, by simp, fun _ => ?_⟩, hss⟩
    intro d hd
    rw [String.toList_ofList] at hd
    exact h d hd

/-- A text is empty, or begins with a blank, a comment, the `:` and the value of a key, or another
lexeme; the scanner goes on behind it. -/
theorem scan_induction {motive : Mode → Nat → List Char → Prop} (nil : ∀ m offset, motive m offset [])
    (space : ∀ m offset c cs, isSpace c = true → motive m (offset + c.utf8Size) cs →
      motive m offset (c :: cs))
    (comment : ∀ m offset cs, motive m (offset + width ('#' :: cs.takeWhile isCommentPart))
      (cs.dropWhile isCommentPart) → motive m offset ('#' :: cs))
    (value : ∀ offset cs, motive .separator (offset + 1 + width (cs.takeWhile isValuePart))
      (cs.dropWhile isValuePart) → motive .key offset (':' :: cs))
    (lexeme : ∀ m offset c cs kind, isSpace c = false → c ≠ '#' →
      m.view (classify c (cs.takeWhile (continues c))) = kind → ¬(m = .key ∧ kind = .colon) →
      motive (m.after kind) (offset + width (c :: cs.takeWhile (continues c)))
        (cs.dropWhile (continues c)) → motive m offset (c :: cs))
    (m : Mode) (offset : Nat) (cs : List Char) : motive m offset cs := by
  induction m, offset, cs using scanFrom.induct with
  | case1 m offset => exact nil m offset
  | case2 m offset c cs hspace ih => exact space m offset c cs hspace ih
  | case3 m offset cs hspace skipped ih => exact comment m offset cs ih
  | case4 m offset c cs hspace hcomment tail rest kind stop hvalue found ih =>
    obtain ⟨rfl, hkind⟩ := hvalue
    obtain rfl := eq_colon_of_view hkind
    have hrest : rest = cs := dropWhile_continues_colon cs
    have hstop : stop = offset + 1 := by
      show offset + width (':' :: cs.takeWhile (continues ':')) = offset + 1
      rw [takeWhile_continues_colon]
      rfl
    rw [hstop] at ih
    simp only [found, hrest] at ih
    exact value offset cs ih
  | case5 m offset c cs hspace hcomment tail rest kind stop hvalue ih =>
    exact lexeme m offset c cs kind (by simpa using hspace) hcomment rfl hvalue ih

/-- **Scanned tokens.** The texts of the tokens of a text go with their kinds. -/
theorem lexical_scanFrom (m : Mode) (offset : Nat) (cs : List Char) :
    Lexical (decide (m = .outside)) ((scanFrom m offset cs).map shape) := by
  induction m, offset, cs using scan_induction with
  | nil m offset => rw [scanFrom]; trivial
  | space m offset c cs hspace ih =>
    rw [scanFrom_space offset cs hspace]
    exact ih
  | comment m offset cs ih =>
    rw [scanFrom_comment]
    exact ih
  | value offset cs ih =>
    have hparts : ∀ d ∈ cs.takeWhile isValuePart, isValuePart d = true := fun d hd =>
      List.mem_takeWhile_imp hd
    rw [scanFrom_value]
    refine ⟨⟨by simp, by simp, by simp, by simp⟩, ?_⟩
    show Lexical false (List.map shape _)
    rw [List.map_append, map_shape_ofValue]
    exact lexical_valueShapes hparts ih
  | lexeme m offset c cs kind hspace hcomment hkind hvalue ih =>
    rw [scanFrom_lexeme offset cs hspace hcomment hkind hvalue]
    subst hkind
    obtain ⟨htext, hend⟩ := view_ne (m := m) (classify_ne c (cs.takeWhile (continues c)))
    refine ⟨⟨hend, isWord_of_view, fun hident houtside => ?_, fun hkind => absurd hkind htext⟩,
      ih.mono (isOutsideAfter_le m _)⟩
    have hm : m = .outside := of_decide_eq_true houtside
    exact ofText?_of_view (by simp [hm]) hident

end Token

end TimedNet
