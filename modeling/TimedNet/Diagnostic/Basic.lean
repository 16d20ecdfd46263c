/-
  TimedNet.Diagnostic.Basic

  What is said about a text: a message with a code at a span. An error bars the text from yielding a
  network, a warning does not.
-/
import TimedNet.Text.Position
import TimedNet.Diagnostic.Code

namespace TimedNet

inductive Severity where
  | error
  | warning
deriving DecidableEq

namespace Severity

def text : Severity → String
  | .error => "error"
  | .warning => "warning"

end Severity

/-- Another place that a diagnostic points at. -/
structure Related where
  message : String
  span : Span
deriving DecidableEq

structure Diagnostic where
  code : Code
  span : Span
  message : String := code.defaultMessage
  severity : Severity := .error
  /-- How to mend it. -/
  hint : Option String := none
  related : List Related := []
deriving DecidableEq

namespace Diagnostic

def isError (d : Diagnostic) : Bool := d.severity == .error

/-- A diagnostic prints as its span and its message. -/
def text (d : Diagnostic) : String := d.span.text ++ " " ++ d.message

instance : ToString Diagnostic := ⟨text⟩

/-- The printed form behind the name of the source, if there is one. -/
def render (source : Option String) (d : Diagnostic) : String :=
  match source with
  | some name => name ++ ":" ++ d.text
  | none => d.text

end Diagnostic

end TimedNet
