import BehaviorTree.Clock
import BehaviorTree.Node.Edit
import BehaviorTree.Node.Run
import BehaviorTree.Node.Walk

/-!
# Trees

A tree is a root node with the list of all identifiers below it. A prototype is built once and
checked for repeated identifiers; an instance is a copy of a prototype that belongs to an owner.
-/

namespace BehaviorTree

variable {ο σ ω : Type}

/-- A root node with the registry of identifiers below it. -/
structure Tree (ο σ : Type) where
  root : Node σ
  /-- All identifiers, each node before its children. -/
  registry : List NodeId
  /-- Who the tree was instantiated for. -/
  owner : Option ο
  /-- Whether the tree is an instance. -/
  isInstance : Bool
  /-- The answer of the last tick. -/
  lastStatus : Option Status

/-- The first identifier that occurred before, either in `seen` or in the list itself. -/
def firstRepeated? (seen : List NodeId) : List NodeId → Option NodeId
  | [] => none
  | id :: rest => if id ∈ seen then some id else firstRepeated? (id :: seen) rest

/-- The result of ticking a tree. -/
structure Ticked (ο σ ω : Type) where
  status : Status
  tree : Tree ο σ
  env : Env ω

namespace Tree

/-- Checks a root node and makes it a prototype. -/
def prototype (root : Node σ) : Except TreeError (Tree ο σ) :=
  let registry := (Walk.start root).toList.map (·.id)
  match firstRepeated? [] registry with
  | some id => .error (.duplicateId id)
  | none => .ok ⟨root, registry, none, false, none⟩

/-- The nodes, each before its children. -/
def nodes (t : Tree ο σ) : List (Node σ) := (Walk.start t.root).toList

/-- The first node with an identifier. -/
def find? (t : Tree ο σ) (id : NodeId) : Option (Node σ) :=
  (Walk.start t.root).find? (·.id == id)

/-- The number of nodes. -/
def size (t : Tree ο σ) : Nat := t.registry.length

/-- Advances the tree by one tick. -/
def tick (B : Behavior ο σ ω) (t : Tree ο σ) (env : Env ω) : Ticked ο σ ω :=
  let s := t.root.run B env
  ⟨s.status, { t with root := s.node, lastStatus := some s.status }, s.env⟩

/-- Publishes the clock on the blackboard and advances the tree. -/
def tickWith (B : Behavior ο σ ω) (t : Tree ο σ) (clock : Clock) (env : Env ω) : Ticked ο σ ω :=
  t.tick B { env with board := clock.publish env.board }

/-- Aborts what is running. -/
def stop (B : Behavior ο σ ω) (t : Tree ο σ) (env : Env ω) : Tree ο σ × Env ω :=
  let r := t.root.abort B env
  ({ t with root := r.1 }, r.2)

/-- Whether the root holds, without advancing it. -/
def evaluate (B : Behavior ο σ ω) (t : Tree ο σ) (env : Env ω) : Status × Env ω :=
  let r := t.root.evaluate B env.board env.world
  (r.1, { env with world := r.2 })

end Tree

end BehaviorTree
