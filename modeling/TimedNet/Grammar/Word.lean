/-
  TimedNet.Grammar.Word

  Tokens in their places in a text. Declarations are written one to a line, so what is left to read
  is cut at the words that end a line; the end of the text ends the last line.
-/
import TimedNet.Text.LineIndex
import TimedNet.Text.Lexeme
import TimedNet.Token.Basic

namespace TimedNet

/-- A token in its place in the text. -/
structure Word where
  kind : TokenKind
  text : String
  span : Span
deriving DecidableEq

namespace Word

def lexeme (w : Word) : Lexeme := ⟨w.text, w.span⟩

def isLineEnd (w : Word) : Bool := w.kind == .endOfLine

end Word

namespace Token

/-- A token in its place in the text that an index describes. -/
def word (index : LineIndex) (t : Token) : Word := ⟨t.kind, t.text, index.span t.start t.stop⟩

/-- The token at the end of a text. -/
def endOfFile (index : LineIndex) : Token := ⟨.endOfFile, "", index.size, index.size⟩

end Token

/-! ## Words that are left to read -/

/-- The words from the first one on that ends no line. -/
def skipLineEnds (ws : List Word) : List Word := ws.dropWhile Word.isLineEnd

/-- The words behind the end of a line, if they stand at one. The end of the text is never passed. -/
def passLineEnd : List Word → List Word
  | [] => []
  | w :: ws => if w.isLineEnd then ws else w :: ws

theorem length_skipLineEnds_le (ws : List Word) : (skipLineEnds ws).length ≤ ws.length :=
  (List.dropWhile_sublist _).length_le

theorem length_passLineEnd_le (ws : List Word) : (passLineEnd ws).length ≤ ws.length := by
  cases ws with
  | nil => exact Nat.le_refl _
  | cons w ws =>
    rw [passLineEnd]
    split <;> simp

/-- Behind skipped line ends there is none. -/
theorem not_isLineEnd_of_skipLineEnds {ws vs : List Word} {w : Word}
    (h : skipLineEnds ws = w :: vs) : w.isLineEnd = false := by
  have hw := List.head?_dropWhile_not Word.isLineEnd ws
  rw [show ws.dropWhile Word.isLineEnd = w :: vs from h] at hw
  simpa using hw

end TimedNet
