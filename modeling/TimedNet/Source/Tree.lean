/-
  TimedNet.Source.Tree

  A tree of folders and files, and what reading a path in it gives. A path is followed name by name
  from a folder; only a folder has names in it, and only a file has a text. Names and paths can be
  too long to be looked up at all.
-/
import TimedNet.Source.Path

namespace TimedNet

/-- What a name in a folder stands for. -/
inductive Tree where
  | file (content : ByteArray)
  | folder (entries : List (String × Tree))

/-- Why a path gives no text. -/
inductive ReadError where
  | nulInPath
  | tooLong
  | notFound
  | notAFolder
  | isAFolder
  | notUtf8
deriving DecidableEq

namespace ReadError

def message : ReadError → String
  | .nulInPath => "file name contained an unexpected NUL byte"
  | .tooLong => "File name too long (os error 36)"
  | .notFound => "No such file or directory (os error 2)"
  | .notAFolder => "Not a directory (os error 20)"
  | .isAFolder => "Is a directory (os error 21)"
  | .notUtf8 => "stream did not contain valid UTF-8"

end ReadError

namespace Tree

/-- A folder with nothing in it. -/
def empty : Tree := .folder []

def entries : Tree → List (String × Tree)
  | .file _ => []
  | .folder es => es

/-! ## Following names -/

/-- The most bytes that a name in a folder can have. -/
def maxNameBytes : Nat := 255

/-- Follows names from a node on. `above` are the folders on the way to it, the nearest first; there
is nothing above the top. -/
def follow (above : List Tree) (here : Tree) : List String → Except ReadError Tree
  | [] => .ok here
  | name :: names =>
    match here with
    | .file _ => .error .notAFolder
    | .folder es =>
      if Path.isHere name then follow above here names
      else if name = ".." then
        match above with
        | [] => follow [] here names
        | up :: rest => follow rest up names
      else if maxNameBytes < name.utf8ByteSize then .error .tooLong
      else
        match es.lookup name with
        | none => .error .notFound
        | some node => follow (here :: above) node names

/-- The text of a file. -/
def text : Tree → Except ReadError String
  | .folder _ => .error .isAFolder
  | .file content =>
    match String.fromUTF8? content with
    | some text => .ok text
    | none => .error .notUtf8

/-! ## Building trees -/

/-- The names on the way from the top, once those that lead nowhere or up are worked off. -/
def normalize (names : List String) : List String :=
  (names.foldl
    (fun way name =>
      if Path.isHere name then way else if name = ".." then way.tail else name :: way)
    []).reverse

/-- The tree with a node at the end of a way; folders on the way are made if need be. -/
def put (t node : Tree) : List String → Tree
  | [] => node
  | name :: way =>
    let child := (t.entries.lookup name).getD .empty
    .folder ((name, put child node way) :: t.entries.filter fun e => e.1 != name)

/-- The tree with a folder at the end of a way, if there is nothing yet. -/
def putFolder (t : Tree) (way : List String) : Tree :=
  match follow [] t way with
  | .ok _ => t
  | .error _ => t.put .empty way

/-- The tree with folders all along names that lead from the top. -/
def addFolder (t : Tree) (names : List String) : Tree :=
  ((List.range (names.length + 1)).map fun n => normalize (names.take n)).foldl putFolder t

/-- The tree with a file where names lead from the top, and folders on the way. -/
def addFile (t : Tree) (names : List String) (content : ByteArray) : Tree :=
  (t.addFolder names.dropLast).put (.file content) (normalize names)

end Tree

/-! ## Reading paths -/

/-- A tree, and the way to the folder that paths start from. -/
structure Site where
  tree : Tree
  folder : List String

namespace Site

/-- A site where there is nothing but an empty folder and the way to it. -/
def fresh (folder : List String) : Site := ⟨Tree.empty.addFolder folder, folder⟩

/-- The names that a path goes through from the top of the tree. -/
def names (s : Site) (p : Path) : List String :=
  if p.isAbsolute then p.names else s.folder ++ p.names

/-- The site with a folder at a path. -/
def addFolder (s : Site) (p : Path) : Site := { s with tree := s.tree.addFolder (s.names p) }

/-- The site with a file at a path. -/
def addFile (s : Site) (p : Path) (content : ByteArray) : Site :=
  { s with tree := s.tree.addFile (s.names p) content }

/-- The text of the file at a path. A path that cannot be one is not followed. -/
def read (s : Site) (p : Path) : Except ReadError String :=
  if p.hasNul then .error .nulInPath
  else if p.isTooLong then .error .tooLong
  else (Tree.follow [] s.tree (s.names p)).bind Tree.text

end Site

end TimedNet
