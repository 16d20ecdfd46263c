/-
  TimedNet.Grammar.Phrase

  The rules of the declarations, and what a line says once it has been read.
-/
import TimedNet.Grammar.Place

namespace TimedNet

/-- What a line says. -/
inductive Phrase where
  | clock (size name : Lexeme)
  | int (size min max initial name : Lexeme)
  | event (name : Lexeme)
  | process (name : Lexeme)
  | location (process name : Lexeme)
  | edge (process target source event : Lexeme)
  | sync (links : List Link)
deriving DecidableEq

namespace Phrase

/-- The rules of the declarations. -/
def rules : List (Keyword × Rule Phrase) :=
  [ (.clock, .fields (.declaration .clock) [.size, .name] Phrase.clock),
    (.edge, .fields (.declaration .edge) [.name, .name, .name, .name] Phrase.edge),
    (.event, .fields (.declaration .event) [.name] Phrase.event),
    (.int, .fields (.declaration .int) [.size, .bound, .bound, .bound, .name] Phrase.int),
    (.location, .fields (.declaration .location) [.name, .name] Phrase.location),
    (.process, .fields (.declaration .process) [.name] Phrase.process),
    (.sync, .links (.declaration .sync) Phrase.sync) ]

/-- The beginning of a line that declares something. -/
def opening : Place Phrase := .opening .start rules

end Phrase

namespace Header

/-- The rule of the declaration of the network, whose only field is its name. -/
def rules : List (Keyword × Rule Lexeme) :=
  [(.system, .fields .header [.name] fun name : Lexeme => name)]

/-- The beginning of the line that declares the network. -/
def opening : Place Lexeme := .opening .header rules

end Header

end TimedNet
