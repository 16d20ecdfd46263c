/-
  TimedNet.Source.Path

  Paths to files: names with slashes between them. A dot or nothing in the place of a name stands for
  the folder it is in, two dots for the folder above.
-/

namespace TimedNet

structure Path where
  text : String
deriving DecidableEq

namespace Path

/-- What stands between the slashes of a path. -/
def names (p : Path) : List String := (p.text.toList.splitOn '/').map String.ofList

/-- A path that begins with a slash starts at the top, any other where its reader is. -/
def isAbsolute (p : Path) : Bool := p.text.toList.head? == some '/'

/-- Whether a path has a character in it that ends paths. -/
def hasNul (p : Path) : Bool := p.text.toList.contains '\x00'

/-- The most bytes that a path can have. -/
def maxBytes : Nat := 4095

def isTooLong (p : Path) : Bool := maxBytes < p.text.utf8ByteSize

/-- Whether a name stands for the folder it is in. -/
def isHere (name : String) : Bool := name == "" || name == "."

/-- The name of the file at a path, if it leads to a name at all. -/
def fileName? (p : Path) : Option String :=
  (p.names.reverse.find? fun n => !isHere n).filter fun n => n != ".."

/-- What stands behind the last dot of a name, unless nothing stands before it. -/
def nameExtension? (name : String) : Option String :=
  match (name.toList.splitOn '.').reverse with
  | [] => none
  | [_] => none
  | [_, []] => none
  | last :: _ => some (String.ofList last)

/-- The extension of the file at a path. -/
def extension? (p : Path) : Option String := p.fileName?.bind nameExtension?

end Path

end TimedNet
