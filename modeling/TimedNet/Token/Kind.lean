/-
  TimedNet.Token.Kind

  The kinds of tokens that a declaration is written with.
-/

namespace TimedNet

/-! ## Keywords -/

/-- The words that open a declaration. -/
inductive Keyword where
  | clock
  | edge
  | event
  | int
  | location
  | process
  | sync
  | system
deriving DecidableEq

namespace Keyword

/-- Every keyword, in alphabetical order. -/
def all : List Keyword := [.clock, .edge, .event, .int, .location, .process, .sync, .system]

/-- How a keyword is spelled. -/
def text : Keyword → String
  | .clock => "clock"
  | .edge => "edge"
  | .event => "event"
  | .int => "int"
  | .location => "location"
  | .process => "process"
  | .sync => "sync"
  | .system => "system"

/-- The keyword that a word spells, if any. -/
def ofText? (word : String) : Option Keyword := all.find? fun k => k.text == word

end Keyword

/-! ## Kinds of tokens -/

inductive TokenKind where
  | ident
  | integer
  /-- The raw value of an attribute. -/
  | text
  | colon
  | atSign
  | question
  | lBrace
  | rBrace
  | endOfLine
  | keyword (k : Keyword)
  /-- A character that starts no token. -/
  | invalid
  | endOfFile
deriving DecidableEq

namespace TokenKind

/-- Every kind of token: names and values, punctuation, keywords, and the two special ones. -/
def all : List TokenKind :=
  [.ident, .integer, .text, .colon, .atSign, .question, .lBrace, .rBrace, .endOfLine]
    ++ Keyword.all.map .keyword ++ [.invalid, .endOfFile]

def isKeyword : TokenKind → Bool
  | .keyword _ => true
  | _ => false

/-- A declaration stops at the end of its line, or of the text. -/
def endsDeclaration : TokenKind → Bool
  | .endOfLine | .endOfFile => true
  | _ => false

theorem endsDeclaration_eq_false {k : TokenKind} (hl : k ≠ .endOfLine) (hf : k ≠ .endOfFile) :
    k.endsDeclaration = false := by
  cases k <;> simp_all [endsDeclaration]

/-- How a message refers to a token of this kind: a token that is always spelled the same stands in
quotes, any other is described. -/
def name : TokenKind → String
  | .ident => "identifier"
  | .integer => "integer value"
  | .text => "text value"
  | .colon => "\":\""
  | .atSign => "\"@\""
  | .question => "\"?\""
  | .lBrace => "\"\x7b\""
  | .rBrace => "\"\x7d\""
  | .endOfLine => "end of line"
  | .keyword k => "\"" ++ k.text ++ "\""
  | .invalid => "invalid token"
  | .endOfFile => "end of file"

instance : ToString TokenKind := ⟨name⟩

end TokenKind

end TimedNet
