/-
  TimedNet.Diagnostic.Problem

  Everything that can be wrong with a text, by cause. A problem knows its code and its wording; at a
  span it becomes a diagnostic.
-/
import TimedNet.Text.Numeral
import TimedNet.Token.Kind
import TimedNet.Store.Insert
import TimedNet.Diagnostic.Basic

namespace TimedNet

/-- What is wrong. -/
inductive Problem where
  /-- A token that no declaration goes on with. -/
  | unexpected (found : TokenKind) (text : String) (expected : List TokenKind)
  /-- A name that a declaration of the same kind holds. -/
  | redeclared (kind : Kind) (name : String)
  /-- A location name that its process has already. -/
  | redeclaredLocation (name process : String)
  /-- A variable name that a variable of the other kind holds. -/
  | variableClash (name : String) (holder : Kind)
  | zeroSize (kind : Kind) (name : String)
  /-- A declaration that the store does not take. -/
  | refused (kind : Kind) (reason : StoreError)
  | undeclaredProcess (name : String)
  | undeclaredLocation (name process : String)
  | undeclaredEvent (name : String)
  | signedRange (error : OutOfRange)
  | unsignedRange (error : OutOfRange)
  /-- An initial value outside of the bounds of its variable. -/
  | initialBounds (name : String) (min max initial : Int32)
  /-- More errors than the reader of a text is willing to see. -/
  | tooManyErrors (count : Nat)
deriving DecidableEq

namespace Kind

/-- What a declaration of this kind is called in a message. -/
def noun : Kind → String
  | .int => "int variable"
  | k => k.text

/-- A kind with its article. -/
def withArticle : Kind → String
  | .int => "an int"
  | .event => "an event"
  | .edge => "an edge"
  | k => "a " ++ k.text

end Kind

namespace Problem

def code : Problem → Code
  | .unexpected .endOfFile _ _ => .unexpectedEnd
  | .unexpected .invalid _ _ => .invalidToken
  | .unexpected _ _ _ => .unexpectedToken
  | .redeclared .. => .redeclared
  | .redeclaredLocation .. => .redeclared
  | .variableClash .. => .variableClash
  | .zeroSize .. => .zeroSize
  | .refused .. => .refused
  | .undeclaredProcess .. => .undeclaredProcess
  | .undeclaredLocation .. => .undeclaredLocation
  | .undeclaredEvent .. => .undeclaredEvent
  | .signedRange .. => .signedRange
  | .unsignedRange .. => .unsignedRange
  | .initialBounds .. => .initialBounds
  | .tooManyErrors .. => .tooManyErrors

/-- What a message calls a token that was found: an invalid one is quoted. -/
def foundName (found : TokenKind) (text : String) : String :=
  if found = .invalid then found.name ++ " \"" ++ text ++ "\"" else found.name

def message : Problem → String
  | .unexpected found text expected =>
    "syntax error, unexpected " ++ foundName found text ++ ", expecting "
      ++ String.intercalate " or " (expected.map TokenKind.name)
  | .redeclared kind name => "multiple declarations of " ++ kind.noun ++ " " ++ name
  | .redeclaredLocation name process =>
    "multiple declarations of location " ++ name ++ " in process " ++ process
  | .variableClash name holder =>
    "variable " ++ name ++ " already declared as " ++ holder.withArticle
  | .zeroSize kind name => kind.noun ++ " " ++ name ++ " has size 0, size should be >= 1"
  | .refused kind reason => "insertion of " ++ kind.text ++ " declaration failed: " ++ reason.message
  | .undeclaredProcess name => "process " ++ name ++ " is not declared"
  | .undeclaredLocation name process =>
    "location " ++ name ++ " is not declared in process " ++ process
  | .undeclaredEvent name => "event " ++ name ++ " is not declared"
  | .signedRange error => error.message
  | .unsignedRange error => error.message
  | .initialBounds name min max initial =>
    "initial value " ++ toString initial.toInt ++ " of int variable " ++ name ++ " is outside ["
      ++ toString min.toInt ++ "," ++ toString max.toInt ++ "]"
  | .tooManyErrors count => "too many errors (" ++ toString count ++ "), parsing aborted"

/-- The error that reports a problem at a span. -/
def diagnostic (p : Problem) (span : Span) : Diagnostic :=
  { code := p.code, span := span, message := p.message }

end Problem

end TimedNet
