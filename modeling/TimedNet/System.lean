/-
  TimedNet.System

  A network of timed automata, and its printed form: a line for the network itself and one for
  every declaration, in which references appear as names.
-/
import TimedNet.Store.Basic

namespace TimedNet

structure System where
  name : String
  attributes : Attributes
  span : Span
  store : Store
deriving DecidableEq

namespace Strength

/-- How a constraint of this strength is marked. -/
def mark : Strength → String
  | .weak => "?"
  | .strong => ""

end Strength

namespace Store

/-- The fields of a declaration, as they stand behind its keyword. -/
def fields (s : Store) : Item → List String
  | .clock name size => [toString size.toNat, name]
  | .int name size min max initial =>
    [toString size.toNat, toString min.toInt, toString max.toInt, toString initial.toInt, name]
  | .event name => [name]
  | .process name => [name]
  | .location p name => [s.nameOf p, name]
  | .edge p target source event =>
    [s.nameOf p, s.nameOf target, s.nameOf source, s.nameOf event]
  | .sync constraints =>
    constraints.map fun c => s.nameOf c.process ++ "@" ++ s.nameOf c.event ++ c.strength.mark

/-- The line that declares a declaration: its keyword, a `:` before every field, and the
attributes. -/
def line (s : Store) (d : Declaration) : String :=
  d.kind.text ++ String.join ((s.fields d.item).map (":" ++ ·)) ++ d.attributes.text

end Store

namespace System

/-- A network without declarations. -/
def new (name : String) (attributes : Attributes) (span : Span) : System :=
  ⟨name, attributes, span, .empty⟩

/-- The line that declares the network itself. -/
def headerLine (n : System) : String := "system:" ++ n.name ++ n.attributes.text

/-- The printed form of a network. -/
def text (n : System) : String :=
  String.join ((n.headerLine :: n.store.declarations.map n.store.line).map (· ++ "\n"))

instance : ToString System := ⟨text⟩

end System

end TimedNet
