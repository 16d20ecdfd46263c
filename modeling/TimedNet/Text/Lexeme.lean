/-
  TimedNet.Text.Lexeme

  A word of a text, as far as its meaning goes: what it says and where it stands.
-/
import TimedNet.Text.Position

namespace TimedNet

/-- A piece of text and where it was written. -/
structure Lexeme where
  text : String
  span : Span
deriving DecidableEq

end TimedNet
