/-
  TimedNet.Token.Scan

  From text to tokens. Outside of attribute values a token is the longest that can be cut off; blanks
  and comments between tokens are dropped. Inside of an attribute list a word in the place of a key
  is an identifier even if it spells a keyword, and a value is the raw text behind the `:` of its key,
  blanks and all. A newline is a token of its own; it ends a comment, a value and an attribute list.
-/
import TimedNet.Text.Bytes
import TimedNet.Token.Basic

namespace TimedNet.Token

open Text (width)

/-! ## Lexemes -/

/-- Blanks that separate tokens. -/
def isSpace (c : Char) : Bool := c == ' ' || c == '\t' || c == '\r'

/-- The characters that a name starts with: an ASCII letter or `_`. -/
def isNameStart (c : Char) : Bool := c.isAlpha || c == '_'

/-- The characters that continue a name: letters, digits, `_` and `.`. -/
def isNamePart (c : Char) : Bool := c.isAlphanum || c == '_' || c == '.'

/-- Whether `d` continues a lexeme that starts with `c`. -/
def continues (c d : Char) : Bool :=
  if isNameStart c then isNamePart d else (c.isDigit || c == '-') && d.isDigit

/-- The token that a character is by itself. -/
def symbol : Char → TokenKind
  | ':' => .colon
  | '@' => .atSign
  | '?' => .question
  | '{' => .lBrace
  | '}' => .rBrace
  | '\n' => .endOfLine
  | _ => .invalid

/-- The kind of the longest lexeme, which starts with `c` and goes on with `tail`. -/
def classify (c : Char) (tail : List Char) : TokenKind :=
  if isNameStart c then
    match Keyword.ofText? (String.ofList (c :: tail)) with
    | some k => .keyword k
    | none => .ident
  else if c.isDigit || (c == '-' && !tail.isEmpty) then .integer
  else symbol c

/-! ## Modes -/

/-- Where the scanner stands. -/
inductive Mode where
  /-- Not in an attribute list. -/
  | outside
  /-- In a list, where a key is due. -/
  | key
  /-- In a list, behind the value of a key. -/
  | separator
deriving DecidableEq

namespace Mode

/-- What a token is taken for: in the place of a key, a keyword is an identifier. -/
def view : Mode → TokenKind → TokenKind
  | .key, .keyword _ => .ident
  | _, k => k

/-- The mode behind a token. The `:` behind a key leads to the value, and past it. -/
def after : Mode → TokenKind → Mode
  | _, .endOfLine => .outside
  | .outside, .lBrace => .key
  | .key, .colon => .separator
  | .separator, .colon => .key
  | .key, .rBrace => .outside
  | .separator, .rBrace => .outside
  | m, _ => m

end Mode

/-! ## Texts -/

/-- The characters of a comment. -/
def isCommentPart (c : Char) : Bool := c != '\n'

/-- The characters of an attribute value. -/
def isValuePart (c : Char) : Bool := !(c == ':' || c == '{' || c == '}' || c == '\n')

/-- The token of a value that stands at an offset; an absent value has none. -/
def ofValue (offset : Nat) : List Char → List Token
  | [] => []
  | cs => [⟨.text, String.ofList cs, offset, offset + width cs⟩]

theorem length_dropWhile_le (p : Char → Bool) (cs : List Char) :
    (cs.dropWhile p).length ≤ cs.length :=
  (List.dropWhile_sublist p).length_le

/-- The tokens of a text, or of the rest of one that stands at an offset. -/
def scanFrom (mode : Mode) (offset : Nat) : List Char → List Token
  | [] => []
  | c :: cs =>
    if isSpace c then scanFrom mode (offset + c.utf8Size) cs
    else if c = '#' then
      let comment := c :: cs.takeWhile isCommentPart
      scanFrom mode (offset + width comment) (cs.dropWhile isCommentPart)
    else
      let tail := cs.takeWhile (continues c)
      let rest := cs.dropWhile (continues c)
      let kind := mode.view (classify c tail)
      let stop := offset + width (c :: tail)
      let token : Token := ⟨kind, String.ofList (c :: tail), offset, stop⟩
      if mode = .key ∧ kind = .colon then
        let value := rest.takeWhile isValuePart
        token :: (ofValue stop value
          ++ scanFrom .separator (stop + width value) (rest.dropWhile isValuePart))
      else token :: scanFrom (mode.after kind) stop rest
termination_by cs => cs.length
decreasing_by
  · simp
  · have h := length_dropWhile_le isCommentPart cs
    simp only [List.length_cons]
    omega
  · have h₁ := length_dropWhile_le (continues c) cs
    have h₂ := length_dropWhile_le isValuePart (cs.dropWhile (continues c))
    simp only [List.length_cons]
    omega
  · have h₁ := length_dropWhile_le (continues c) cs
    simp only [List.length_cons]
    omega

/-- A `:` is a lexeme by itself. -/
theorem takeWhile_continues_colon (cs : List Char) : cs.takeWhile (continues ':') = [] := by
  have hnone : ∀ d, continues ':' d = false := fun d => rfl
  cases cs <;> simp [hnone]

theorem dropWhile_continues_colon (cs : List Char) : cs.dropWhile (continues ':') = cs := by
  have hnone : ∀ d, continues ':' d = false := fun d => rfl
  cases cs <;> simp [hnone]

section Steps

variable {mode : Mode} {c : Char} (offset : Nat) (cs : List Char)

theorem scanFrom_space (h : isSpace c = true) :
    scanFrom mode offset (c :: cs) = scanFrom mode (offset + c.utf8Size) cs := by
  rw [scanFrom, if_pos h]

theorem scanFrom_comment :
    scanFrom mode offset ('#' :: cs) =
      scanFrom mode (offset + width ('#' :: cs.takeWhile isCommentPart))
        (cs.dropWhile isCommentPart) := by
  rw [scanFrom, if_neg (by decide), if_pos rfl]

/-- The longest lexeme is cut off. -/
theorem scanFrom_lexeme (hspace : isSpace c = false) (hcomment : c ≠ '#')
    {kind : TokenKind} (hkind : mode.view (classify c (cs.takeWhile (continues c))) = kind)
    (hvalue : ¬(mode = .key ∧ kind = .colon)) :
    scanFrom mode offset (c :: cs) =
      ⟨kind, String.ofList (c :: cs.takeWhile (continues c)), offset,
          offset + width (c :: cs.takeWhile (continues c))⟩ ::
        scanFrom (mode.after kind) (offset + width (c :: cs.takeWhile (continues c)))
          (cs.dropWhile (continues c)) := by
  subst hkind
  rw [scanFrom, if_neg (by simp [hspace]), if_neg hcomment]
  simp only [if_neg hvalue]

/-- Behind the `:` of a key, its value is cut off. -/
theorem scanFrom_value :
    scanFrom .key offset (':' :: cs) =
      ⟨.colon, ":", offset, offset + 1⟩ ::
        (ofValue (offset + 1) (cs.takeWhile isValuePart)
          ++ scanFrom .separator (offset + 1 + width (cs.takeWhile isValuePart))
              (cs.dropWhile isValuePart)) := by
  rw [scanFrom, if_neg (by decide), if_neg (by decide)]
  simp only [takeWhile_continues_colon, dropWhile_continues_colon]
  rfl

end Steps

/-- The tokens of a text. -/
def scan (source : String) : List Token := scanFrom .outside 0 source.toList

end TimedNet.Token
