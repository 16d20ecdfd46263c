/-
  TimedNet.Store.Basic

  The declarations of a network. A store keeps them on one shelf for each kind, in order; the rank on
  the shelf is the index of the id. Beside the shelves there is an index of the names that are taken,
  and the order in which the declarations of all kinds were accepted.
-/
import TimedNet.Declaration.Basic

namespace TimedNet

/-! ## A value for every kind -/

/-- One value for every kind. -/
structure PerKind (α : Type) where
  clock : α
  int : α
  event : α
  process : α
  location : α
  edge : α
  sync : α
deriving DecidableEq

namespace PerKind

variable {α : Type}

/-- The same value for every kind. -/
def const (a : α) : PerKind α := ⟨a, a, a, a, a, a, a⟩

def get (t : PerKind α) : Kind → α
  | .clock => t.clock
  | .int => t.int
  | .event => t.event
  | .process => t.process
  | .location => t.location
  | .edge => t.edge
  | .sync => t.sync

/-- The table with another value for a kind. -/
def set (t : PerKind α) (a : α) : Kind → PerKind α
  | .clock => { t with clock := a }
  | .int => { t with int := a }
  | .event => { t with event := a }
  | .process => { t with process := a }
  | .location => { t with location := a }
  | .edge => { t with edge := a }
  | .sync => { t with sync := a }

@[simp] theorem get_const (a : α) (k : Kind) : (const a).get k = a := by
  cases k <;> rfl

@[simp] theorem get_set_self (t : PerKind α) (a : α) (k : Kind) : (t.set a k).get k = a := by
  cases k <;> rfl

theorem get_set_of_ne (t : PerKind α) (a : α) {j k : Kind} (h : j ≠ k) :
    (t.set a k).get j = t.get j := by
  cases j <;> cases k <;> first | exact absurd rfl h | rfl

end PerKind

/-! ## Stores -/

structure Store where
  /-- The declarations of each kind, in order. -/
  shelves : PerKind (List Declaration) := .const []
  /-- The names that are taken, and the declarations that hold them. -/
  names : List ((Scope × String) × DeclarationId) := []
  /-- All declarations, in the order in which they were accepted. -/
  order : List DeclarationId := []
deriving DecidableEq

namespace Store

/-- The store without declarations. -/
def empty : Store := {}

def size (s : Store) : Nat := s.order.length

def isEmpty (s : Store) : Bool := s.order.isEmpty

/-! ## Declarations by kind and by id -/

/-- The declarations of a kind, in order. -/
def ofKind (s : Store) (k : Kind) : List Declaration := s.shelves.get k

/-- The declaration with an id. -/
def get? (s : Store) (id : DeclarationId) : Option Declaration := (s.ofKind id.kind)[id.index]?

/-- All declarations, in the order in which they were accepted. -/
def declarations (s : Store) : List Declaration := s.order.filterMap s.get?

/-- The id that the next declaration of a kind gets. -/
def nextId (s : Store) (k : Kind) : DeclarationId := ⟨k, (s.ofKind k).length⟩

/-- Whether a declaration has its name in the location namespace of a process. -/
def isLocationOf (process : ProcessRef) (d : Declaration) : Bool :=
  match d.item with
  | .location p _ => p == process
  | _ => false

/-- The locations of a process, in order. -/
def locationsOf (s : Store) (process : ProcessRef) : List Declaration :=
  (s.ofKind .location).filter (isLocationOf process)

/-! ## Declarations by name -/

/-- The id of the declaration that holds a name. -/
def holder? (s : Store) (scope : Scope) (name : String) : Option DeclarationId :=
  s.names.lookup (scope, name)

/-- The declaration that holds a name. -/
def find? (s : Store) (scope : Scope) (name : String) : Option Declaration :=
  (s.holder? scope name).bind s.get?

/-- A reference to the declaration of kind `k` that holds a name. -/
def ref? (s : Store) (k : Kind) (scope : Scope) (name : String) : Option (Ref k) :=
  (s.holder? scope name).bind fun id => if id.kind = k then some ⟨id.index⟩ else none

def process? (s : Store) (name : String) : Option ProcessRef := s.ref? .process .processes name

def event? (s : Store) (name : String) : Option EventRef := s.ref? .event .events name

def location? (s : Store) (process : ProcessRef) (name : String) : Option LocationRef :=
  s.ref? .location (.locations process) name

/-- The variable of a kind that holds a name. -/
def variableOf? (s : Store) (k : Kind) (name : String) : Option Declaration :=
  (s.holder? .variables name).bind fun id => if id.kind = k then s.get? id else none

def clock? (s : Store) (name : String) : Option Declaration := s.variableOf? .clock name

def int? (s : Store) (name : String) : Option Declaration := s.variableOf? .int name

/-- The name of what is referred to; a reference that leads nowhere shows as `?`. -/
def nameOf {k : Kind} (s : Store) (r : Ref k) : String :=
  ((s.get? r.id).bind Declaration.name?).getD "?"

end Store

end TimedNet
