/-
  TimedNet.Declaration.Kind

  What can be declared, and how declarations refer to each other: by kind and by rank among the
  declarations of that kind.
-/

namespace TimedNet

/-! ## Kinds -/

/-- The kinds of declarations of a network. -/
inductive Kind where
  | clock
  | int
  | event
  | process
  | location
  | edge
  | sync
deriving DecidableEq

namespace Kind

/-- The word for a kind, which is also the keyword of its declarations. -/
def text : Kind → String
  | .clock => "clock"
  | .int => "int"
  | .event => "event"
  | .process => "process"
  | .location => "location"
  | .edge => "edge"
  | .sync => "sync"

instance : ToString Kind := ⟨text⟩

end Kind

/-! ## Identities -/

/-- Identifies a declaration: `index` counts the earlier ones of the same kind. -/
structure DeclarationId where
  kind : Kind
  index : Nat
deriving DecidableEq

/-- A reference to the declaration of kind `k` that has the given index. -/
structure Ref (k : Kind) where
  index : Nat
deriving DecidableEq

abbrev ProcessRef := Ref .process

abbrev LocationRef := Ref .location

abbrev EventRef := Ref .event

namespace Ref

/-- The declaration that is referred to. -/
def id {k : Kind} (r : Ref k) : DeclarationId := ⟨k, r.index⟩

end Ref

end TimedNet
