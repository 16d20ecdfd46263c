/-
  TimedNet.Token.Basic

  A token is a piece of text of a known kind, together with the bytes of the source it was cut
  from. A reader of tokens does not rely on text and place to agree: tokens may come from anywhere.
-/
import TimedNet.Token.Kind

namespace TimedNet

structure Token where
  kind : TokenKind
  text : String
  /-- The offset of the first byte. -/
  start : Nat
  /-- The offset behind the last byte. -/
  stop : Nat
deriving DecidableEq

namespace Token

/-- A token whose text stands at an offset. -/
def ofText (kind : TokenKind) (text : String) (start : Nat) : Token :=
  ⟨kind, text, start, start + text.utf8ByteSize⟩

end Token

end TimedNet
