/-
  TimedNet.Declaration.Draft

  A declaration before it is checked: names are still text, numerals have been read, and the parts
  of a synchronization have been looked up.
-/
import TimedNet.Text.Lexeme
import TimedNet.Declaration.Basic

namespace TimedNet

/-- A numeral and what it was read as; one that is out of range has no value. -/
structure Number (α : Type) where
  literal : Lexeme
  value : Option α

/-- What a draft is to declare. -/
inductive DraftItem where
  | clock (size : Number UInt32) (name : Lexeme)
  | int (size : Number UInt32) (min max initial : Number Int32) (name : Lexeme)
  | event (name : Lexeme)
  | process (name : Lexeme)
  | location (process name : Lexeme)
  | edge (process target source event : Lexeme)
  | sync (constraints : List SyncConstraint)

namespace DraftItem

def kind : DraftItem → Kind
  | .clock .. => .clock
  | .int .. => .int
  | .event .. => .event
  | .process .. => .process
  | .location .. => .location
  | .edge .. => .edge
  | .sync .. => .sync

end DraftItem

structure Draft where
  item : DraftItem
  attributes : Attributes
  span : Span

namespace Draft

def kind (d : Draft) : Kind := d.item.kind

end Draft

end TimedNet
