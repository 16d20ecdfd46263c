/-
  TimedNet.Store.Insert

  Adding a declaration to a store. What it refers to has to be there and its name has to be free;
  otherwise it is refused, and the first fault found is told. An accepted declaration goes to the end
  of the shelf of its kind, its name into the index, and its id to the end of the order.
-/
import TimedNet.Store.Basic

namespace TimedNet

/-- Why a store refuses a declaration. -/
inductive StoreError where
  | duplicate (name : String) (holder : Kind)
  | unknownProcess (process : ProcessRef)
  | unknownEvent (event : EventRef)
  | unknownLocation (process : ProcessRef) (location : LocationRef)
deriving DecidableEq

namespace StoreError

def message : StoreError → String
  | .duplicate name holder => name ++ " is already declared as " ++ holder.text
  | .unknownProcess p => "no process with id ProcessId(" ++ toString p.index ++ ")"
  | .unknownEvent e => "no event with id EventId(" ++ toString e.index ++ ")"
  | .unknownLocation p l =>
    "no location with id LocationId(" ++ toString l.index ++ ") in process ProcessId("
      ++ toString p.index ++ ")"

end StoreError

namespace Store

/-! ## Faults -/

/-- The fault of a reference to a process that is not there. -/
def processFault? (s : Store) (process : ProcessRef) : Option StoreError :=
  if (s.get? process.id).isSome then none else some (.unknownProcess process)

/-- The fault of a reference to an event that is not there. -/
def eventFault? (s : Store) (event : EventRef) : Option StoreError :=
  if (s.get? event.id).isSome then none else some (.unknownEvent event)

/-- The fault of a reference to a location that is not there or belongs to another process. -/
def locationFault? (s : Store) (process : ProcessRef) (location : LocationRef) :
    Option StoreError :=
  if (s.get? location.id).any (isLocationOf process) then none
  else some (.unknownLocation process location)

/-- The first fault among the references of a declaration. -/
def referenceFault? (s : Store) : Item → Option StoreError
  | .location process _ => s.processFault? process
  | .edge process target source event =>
    (s.processFault? process).or <| (s.locationFault? process target).or <|
      (s.locationFault? process source).or <| s.eventFault? event
  | .sync constraints =>
    constraints.findSome? fun c => (s.processFault? c.process).or (s.eventFault? c.event)
  | _ => none

/-- The fault of a name that another declaration holds. -/
def nameFault? (s : Store) (i : Item) : Option StoreError :=
  i.key?.bind fun (scope, name) =>
    (s.holder? scope name).map fun holder => .duplicate name holder.kind

/-- The first fault of a declaration: references come before the name. -/
def fault? (s : Store) (i : Item) : Option StoreError := (s.referenceFault? i).or (s.nameFault? i)

/-! ## Insertion -/

/-- The index of names with the name of a declaration that has the given id. -/
def register (names : List ((Scope × String) × DeclarationId)) (d : Declaration)
    (id : DeclarationId) : List ((Scope × String) × DeclarationId) :=
  match d.key? with
  | some key => (key, id) :: names
  | none => names

/-- The store with one more declaration. -/
def push (s : Store) (d : Declaration) : Store :=
  let id := s.nextId d.kind
  { shelves := s.shelves.set (s.ofKind d.kind ++ [d]) d.kind
    names := register s.names d id
    order := s.order ++ [id] }

/-- Adds a declaration and tells its id. -/
def insert (s : Store) (d : Declaration) : Except StoreError (DeclarationId × Store) :=
  match s.fault? d.item with
  | some e => .error e
  | none => .ok (s.nextId d.kind, s.push d)

end Store

end TimedNet
