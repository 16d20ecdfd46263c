/-
  TimedNet.Diagnostic.Code

  The codes of diagnostics. The first two digits name the group: 01 and 02 syntax, 03 declarations,
  04 references, 05 numerals, 06 bounds of integer variables, 09 the end of the reading.
-/

namespace TimedNet

inductive Code where
  | invalidToken
  | unexpectedToken
  | unexpectedEnd
  | redeclared
  | variableClash
  | zeroSize
  | refused
  | undeclaredProcess
  | undeclaredLocation
  | undeclaredEvent
  | signedRange
  | unsignedRange
  | initialBounds
  | tooManyErrors
deriving DecidableEq

/-- How an error bears on the reading: a line that is no declaration, a declaration that is dropped,
or the end of the reading. -/
inductive Gravity where
  | syntactic
  | semantic
  | fatal
deriving DecidableEq

namespace Code

/-- Every code, in the order of their numbers. -/
def all : List Code :=
  [.invalidToken, .unexpectedToken, .unexpectedEnd, .redeclared, .variableClash, .zeroSize,
    .refused, .undeclaredProcess, .undeclaredLocation, .undeclaredEvent, .signedRange,
    .unsignedRange, .initialBounds, .tooManyErrors]

/-- The number of a code, as it is shown. -/
def text : Code → String
  | .invalidToken => "E0101"
  | .unexpectedToken => "E0201"
  | .unexpectedEnd => "E0202"
  | .redeclared => "E0301"
  | .variableClash => "E0302"
  | .zeroSize => "E0303"
  | .refused => "E0304"
  | .undeclaredProcess => "E0401"
  | .undeclaredLocation => "E0402"
  | .undeclaredEvent => "E0403"
  | .signedRange => "E0501"
  | .unsignedRange => "E0502"
  | .initialBounds => "E0601"
  | .tooManyErrors => "E0901"

instance : ToString Code := ⟨text⟩

/-- The code that a number stands for, if any. -/
def ofText? (number : String) : Option Code := all.find? fun c => c.text == number

def gravity : Code → Gravity
  | .invalidToken | .unexpectedToken | .unexpectedEnd => .syntactic
  | .tooManyErrors => .fatal
  | _ => .semantic

def isFatal (c : Code) : Bool := c.gravity == .fatal

/-- The message of a diagnostic that comes without one. -/
def defaultMessage : Code → String
  | .invalidToken => "invalid token"
  | .unexpectedToken => "unexpected token"
  | .unexpectedEnd => "unexpected end of file"
  | .redeclared => "multiple declarations"
  | .variableClash => "variable already declared"
  | .zeroSize => "size should be >= 1"
  | .refused => "insertion of declaration failed"
  | .undeclaredProcess => "process is not declared"
  | .undeclaredLocation => "location is not declared"
  | .undeclaredEvent => "event is not declared"
  | .signedRange => "integer value out of range"
  | .unsignedRange => "unsigned integer value out of range"
  | .initialBounds => "initial value out of bounds"
  | .tooManyErrors => "too many errors"

end Code

end TimedNet
