/-
  TimedNet.Parsed

  Reading a text as a whole: its tokens are scanned and read in a session of their own.
-/
import TimedNet.Token.Scan
import TimedNet.Session.Basic

namespace TimedNet

/-- What came of reading a text. -/
structure Parsed where
  /-- The network, if nothing was wrong. -/
  system : Option System
  diagnostics : List Diagnostic
  /-- Whether reading stopped before the end. -/
  isFatal : Bool
  sourceName : Option String

namespace Parsed

def isOk (p : Parsed) : Bool := p.system.isSome

def errors (p : Parsed) : List Diagnostic := p.diagnostics.filter Diagnostic.isError

def errorCount (p : Parsed) : Nat := p.errors.length

/-- All diagnostics, one to a line. -/
def render (p : Parsed) : String :=
  String.intercalate "\n" (p.diagnostics.map (Diagnostic.render p.sourceName))

end Parsed

/-- Reads the declarations of a network off a text. -/
def parse (source : String) (options : Options) : Parsed :=
  let session := Session.new (Token.scan source) (.ofText source) options .empty
  let (system, session) := session.read
  ⟨system, session.report.entries, session.isFatal, options.sourceName⟩

end TimedNet
