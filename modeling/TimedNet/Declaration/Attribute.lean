/-
  TimedNet.Declaration.Attribute

  Attributes are pairs of a key and a raw text that a declaration carries along. A key may occur
  more than once, and the order is kept.
-/
import TimedNet.Text.Position
import TimedNet.Text.Blank

namespace TimedNet

structure Attribute where
  key : String
  value : String
  keySpan : Span
  valueSpan : Span
deriving DecidableEq

namespace Attribute

/-- The attribute whose value is written as `raw`: the blanks around a value do not count. -/
def ofRaw (key raw : String) (keySpan valueSpan : Span) : Attribute :=
  ⟨key, Text.trim raw, keySpan, valueSpan⟩

/-- An attribute prints as `KEY:VALUE`. -/
def text (a : Attribute) : String := a.key ++ ":" ++ a.value

instance : ToString Attribute := ⟨text⟩

end Attribute

structure Attributes where
  entries : List Attribute := []
deriving DecidableEq

namespace Attributes

def push (as : Attributes) (a : Attribute) : Attributes := ⟨as.entries ++ [a]⟩

def size (as : Attributes) : Nat := as.entries.length

def isEmpty (as : Attributes) : Bool := as.entries.isEmpty

/-- The attributes with a key, in order. -/
def getAll (as : Attributes) (key : String) : List Attribute :=
  as.entries.filter fun a => a.key == key

/-- The first value of a key. -/
def first? (as : Attributes) (key : String) : Option String :=
  (as.entries.find? fun a => a.key == key).map Attribute.value

/-- The last value of a key. -/
def last? (as : Attributes) (key : String) : Option String :=
  (as.entries.reverse.find? fun a => a.key == key).map Attribute.value

def contains (as : Attributes) (key : String) : Bool := as.entries.any fun a => a.key == key

/-- The keys in order, each as often as it occurs. -/
def keys (as : Attributes) : List String := as.entries.map Attribute.key

/-- Attributes print in braces, with ` : ` between any two. -/
def text (as : Attributes) : String :=
  "\x7b" ++ String.intercalate " : " (as.entries.map Attribute.text) ++ "\x7d"

instance : ToString Attributes := ⟨text⟩

end Attributes

end TimedNet
