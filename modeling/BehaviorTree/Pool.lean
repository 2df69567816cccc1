import BehaviorTree.Behavior
import BehaviorTree.Node.Edit
import BehaviorTree.Node.Walk

/-!
# Node pools

A pool keeps nodes that nobody uses, in one stack for each identifier, and hands them out again as
shells of the node that is asked for. Each stack has the same bound; what comes back to a full
stack is dropped.
-/

namespace BehaviorTree

variable {σ : Type}

/-- Why a tree cannot be instantiated. -/
inductive CloneError where
  /-- A leaf could not be bound to its owner. -/
  | awake (node : NodeId) (name : String) (source : AwakeError)
  /-- A stack held a node of another identifier. -/
  | poolCorrupted (expected found : NodeId)
  /-- The tree is itself an instance. -/
  | notAPrototype
  deriving DecidableEq

/-- The error in words. -/
def CloneError.message : CloneError → String
  | .awake node name source =>
    "node " ++ node.text ++ " (`" ++ name ++ "`) failed to awake: " ++ source.message
  | .poolCorrupted expected found =>
    "node pool corrupted: free list for " ++ expected.text ++ " held node " ++ found.text
  | .notAPrototype => "tree is already an instance; instantiate from its prototype"

/-- What a pool has done so far. -/
structure PoolStats where
  /-- Requests served from a stack. -/
  hits : Nat
  /-- Requests that needed a new node. -/
  misses : Nat
  /-- Nodes that came back and were kept. -/
  released : Nat
  /-- Nodes that came back to a full stack. -/
  dropped : Nat
  deriving DecidableEq, Repr

/-- Free nodes by identifier, with a bound for each stack. -/
structure Pool (σ : Type) where
  maxFree : Nat
  free : Std.ExtTreeMap NodeId (List (Node σ))
  stats : PoolStats

namespace Pool

/-- The bound of a pool for which none is given. -/
def standardMaxFree : Nat := 64

/-- A pool without free nodes. -/
def empty (maxFree : Nat) : Pool σ := ⟨maxFree, ∅, ⟨0, 0, 0, 0⟩⟩

/-- The free nodes of an identifier, last returned first. -/
def stack (p : Pool σ) (id : NodeId) : List (Node σ) := p.free.getD id []

/-- The pool with another stack for an identifier. -/
def withStack (p : Pool σ) (id : NodeId) (nodes : List (Node σ)) : Pool σ :=
  { p with free := p.free.insert id nodes }

/-- How many nodes of an identifier are free. -/
def freeCount (p : Pool σ) (id : NodeId) : Nat := (p.stack id).length

/-- How many nodes are free. -/
def totalFree (p : Pool σ) : Nat :=
  p.free.toList.foldl (fun count entry => count + entry.2.length) 0

/-- A shell of a node: a free node of its identifier if there is one, else a new node. -/
def acquire (p : Pool σ) (model : Node σ) : Except CloneError (Node σ) × Pool σ :=
  match p.stack model.id with
  | [] => (.ok model.shell, { p with stats.misses := p.stats.misses + 1 })
  | n :: rest =>
    let p := p.withStack model.id rest
    if n.id = model.id then
      (.ok (n.renewed model), { p with stats.hits := p.stats.hits + 1 })
    else (.error (.poolCorrupted model.id n.id), p)

/-- Takes back a single node, scrubbed and without its children. -/
def put (p : Pool σ) (n : Node σ) : Pool σ :=
  if p.freeCount n.id < p.maxFree then
    let p := p.withStack n.id (n.scrubbed :: p.stack n.id)
    { p with stats.released := p.stats.released + 1 }
  else { p with stats.dropped := p.stats.dropped + 1 }

mutual

/-- The order in which the nodes of a subtree come back: each before its children, and the
children from the last to the first. -/
def returnOrder : Node σ → List (Node σ)
  | .leaf tag life state => [.leaf tag life state]
  | .composite tag life kind resume children =>
    .composite tag life kind resume children :: returnOrders children
  | .decorator tag life kind memory none => [.decorator tag life kind memory none]
  | .decorator tag life kind memory (some child) =>
    .decorator tag life kind memory (some child) :: returnOrder child
termination_by structural n => n

/-- The order for several subtrees: the last one first. -/
def returnOrders : List (Node σ) → List (Node σ)
  | [] => []
  | c :: rest => returnOrders rest ++ returnOrder c
termination_by structural ns => ns

end

/-- Takes back a node and all nodes below it. -/
def release (p : Pool σ) (n : Node σ) : Pool σ := (returnOrder n).foldl put p

/-- Fills the stack of a node with shells up to a number of copies. -/
def fill (p : Pool σ) (copies : Nat) (model : Node σ) : Pool σ :=
  let missing := min copies p.maxFree - p.freeCount model.id
  p.withStack model.id (List.replicate missing model.shell ++ p.stack model.id)

/-- Fills the stacks of all nodes of a subtree with shells up to a number of copies. -/
def prewarm (p : Pool σ) (root : Node σ) (copies : Nat) : Pool σ :=
  (Walk.start root).toList.foldl (fill · copies) p

/-- Drops every free node and keeps the counters. -/
def clear (p : Pool σ) : Pool σ := { p with free := ∅ }

end Pool

end BehaviorTree
