/-
  TimedNet.Source.Load

  Reading a network from a file. Only files with the extension of declarations are read.
-/
import TimedNet.Source.Tree
import TimedNet.Parsed

namespace TimedNet

/-- The extension of files with declarations. -/
def sourceExtension : String := "tck"

/-- Why a file cannot be loaded. -/
inductive LoadError where
  | unsupportedExtension (path : Path)
  | unreadable (path : Path) (reason : ReadError)
deriving DecidableEq

namespace LoadError

def message : LoadError → String
  | .unsupportedExtension path => "unsupported file extension: " ++ path.text
  | .unreadable path reason => "failed to read " ++ path.text ++ ": " ++ reason.message

end LoadError

namespace Path

/-- Whether a path has the extension of files with declarations. -/
def isSupported (p : Path) : Bool := p.extension? == some sourceExtension

end Path

/-- Reads the file at a path and what it declares. Unless the options name the source, it goes by
its path. -/
def load (s : Site) (path : Path) (options : Options) : Except LoadError Parsed :=
  if path.isSupported then
    match s.read path with
    | .ok text =>
      .ok (parse text { options with sourceName := some (options.sourceName.getD path.text) })
    | .error reason => .error (.unreadable path reason)
  else .error (.unsupportedExtension path)

end TimedNet
