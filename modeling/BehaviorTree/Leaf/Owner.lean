import BehaviorTree.Guard.Basic

/-!
# Owners

Whoever a tree is instantiated for. The engine never looks inside; leaves that need something of
their owner ask for it when they are bound.
-/

namespace BehaviorTree

/-- What an owner can be. -/
inductive OwnerData where
  | unit
  | host (name : String)
  | guard (g : Guard)

/-- An owner: two handles are the same owner when they have the same identity. -/
structure Owner where
  id : Nat
  data : OwnerData

namespace Owner

/-- Whether two handles are of one owner. -/
def same (a b : Owner) : Bool := a.id == b.id

/-- The name of a host. -/
def host? (o : Owner) : Option String :=
  match o.data with
  | .host name => some name
  | _ => none

/-- The guard that the owner is. -/
def guard? (o : Owner) : Option Guard :=
  match o.data with
  | .guard g => some g
  | _ => none

/-- Whether the owner is nothing in particular. -/
def isUnit (o : Owner) : Bool :=
  match o.data with
  | .unit => true
  | _ => false

end Owner

end BehaviorTree
