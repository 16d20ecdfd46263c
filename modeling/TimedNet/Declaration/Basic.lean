/-
  TimedNet.Declaration.Basic

  The declarations that make up a network of timed automata: variables, events, processes with their
  locations and edges, and synchronizations of events across processes.
-/
import TimedNet.Declaration.Attribute
import TimedNet.Declaration.Kind

namespace TimedNet

/-! ## Parts of declarations -/

/-- Whether a process has to take part in a synchronization, or does if it can. -/
inductive Strength where
  | weak
  | strong
deriving DecidableEq

/-- The part of one process in a synchronization: the event that it contributes. -/
structure SyncConstraint where
  process : ProcessRef
  event : EventRef
  strength : Strength
  span : Span
deriving DecidableEq

/-- The namespaces. Clocks and integer variables share one; every process has one for its
locations. -/
inductive Scope where
  | variables
  | events
  | processes
  | locations (process : ProcessRef)
deriving DecidableEq

namespace Scope

/-- The kinds of declarations that have their names in a namespace. -/
def kinds : Scope → List Kind
  | .variables => [.clock, .int]
  | .events => [.event]
  | .processes => [.process]
  | .locations _ => [.location]

end Scope

/-! ## Declarations -/

/-- What a declaration declares. -/
inductive Item where
  | clock (name : String) (size : UInt32)
  | int (name : String) (size : UInt32) (min max initial : Int32)
  | event (name : String)
  | process (name : String)
  | location (process : ProcessRef) (name : String)
  | edge (process : ProcessRef) (target source : LocationRef) (event : EventRef)
  | sync (constraints : List SyncConstraint)
deriving DecidableEq

namespace Item

def kind : Item → Kind
  | .clock .. => .clock
  | .int .. => .int
  | .event .. => .event
  | .process .. => .process
  | .location .. => .location
  | .edge .. => .edge
  | .sync .. => .sync

/-- The name that is declared and its namespace; edges and synchronizations have none. -/
def key? : Item → Option (Scope × String)
  | .clock name _ => some (.variables, name)
  | .int name .. => some (.variables, name)
  | .event name => some (.events, name)
  | .process name => some (.processes, name)
  | .location p name => some (.locations p, name)
  | .edge .. => none
  | .sync .. => none

def name? (i : Item) : Option String := i.key?.map Prod.snd

end Item

/-- Whether the initial value of an integer variable lies within its bounds. -/
def InBounds (min max initial : Int32) : Prop := min ≤ initial ∧ initial ≤ max

instance (min max initial : Int32) : Decidable (InBounds min max initial) :=
  inferInstanceAs (Decidable (min ≤ initial ∧ initial ≤ max))

structure Declaration where
  item : Item
  attributes : Attributes
  span : Span
deriving DecidableEq

namespace Declaration

def kind (d : Declaration) : Kind := d.item.kind

def key? (d : Declaration) : Option (Scope × String) := d.item.key?

def name? (d : Declaration) : Option String := d.item.name?

end Declaration

end TimedNet
