/-
  TimedNet.Text.LineIndex

  From byte offsets to lines and columns. A line ends with its newline byte; the index keeps the
  offset at which every line after the first starts.
-/
import TimedNet.Text.Position
import TimedNet.Text.Bytes

namespace TimedNet

/-- Where the lines of a text start. -/
structure LineIndex where
  /-- The starts of the lines after the first, in order. -/
  starts : List Nat
  /-- The length of the text in bytes. -/
  size : Nat
deriving DecidableEq

namespace LineIndex

/-- The offsets right behind the newlines of bytes that stand at `offset`. -/
def startsFrom (offset : Nat) : List UInt8 → List Nat
  | [] => []
  | b :: bs =>
    if b = Text.newline then (offset + 1) :: startsFrom (offset + 1) bs else startsFrom (offset + 1) bs

/-- The index of a text given as bytes. -/
def ofBytes (bs : List UInt8) : LineIndex := ⟨startsFrom 0 bs, bs.length⟩

/-- The index of a text. -/
def ofText (source : String) : LineIndex := ofBytes (Text.bytes source.toList)

/-- An index is empty when its text is. -/
def isEmpty (i : LineIndex) : Bool := i.size == 0

/-- Every newline begins a line, and there is always a first one. -/
def lineCount (i : LineIndex) : Nat := i.starts.length + 1

/-- The position of an offset that lies behind `start`, the start of line `line`, where `starts`
are the starts of the lines that follow. -/
def positionFrom (line start : Nat) (starts : List Nat) (offset : Nat) : Position :=
  match starts with
  | [] => ⟨line, offset - start⟩
  | next :: rest =>
    if next ≤ offset then positionFrom (line + 1) next rest offset else ⟨line, offset - start⟩

/-- The position of a byte offset. An offset past the end stands for the end. -/
def position (i : LineIndex) (offset : Nat) : Position :=
  positionFrom 0 0 i.starts (min offset i.size)

/-- The span between two byte offsets. -/
def span (i : LineIndex) (start stop : Nat) : Span := ⟨i.position start, i.position stop⟩

end LineIndex

end TimedNet
