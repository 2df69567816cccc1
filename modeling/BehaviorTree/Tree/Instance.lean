import BehaviorTree.Pool
import BehaviorTree.Tree.Basic

/-!
# Instantiating trees

A copy takes a shell of every node from the pool, binds it to the owner, and copies the children
in order, so that nodes are bound in pre-order. When a node cannot be had or bound, everything
that was taken goes back to the pool.
-/

namespace BehaviorTree

variable {ο σ ω : Type}

/-- Where trees are made: a pool and what lies outside. -/
structure Host (σ ω : Type) extends Outside ω where
  pool : Pool σ

/-- The copies of some children: those that were made, and what stopped the others. -/
structure Copies (σ ω : Type) where
  children : List (Node σ)
  failure : Option CloneError
  pool : Pool σ
  world : ω

namespace Node

/-- Binds a shell to an owner; only leaves have something to bind. -/
def awake (B : Behavior ο σ ω) (owner : ο) (n : Node σ) (w : ω) :
    Except AwakeError (Node σ) × ω :=
  match n with
  | leaf tag life state =>
    let r := B.awake owner state w
    (r.1.map (leaf tag life), r.2)
  | _ => (.ok n, w)

/-- Takes a shell from the pool and binds it to the owner; a shell that cannot be bound goes back.
-/
def acquireAwake (B : Behavior ο σ ω) (owner : ο) (model : Node σ) (pool : Pool σ) (w : ω) :
    Except CloneError (Node σ) × Pool σ × ω :=
  match pool.acquire model with
  | (.error e, pool) => (.error e, pool, w)
  | (.ok n, pool) =>
    match n.awake B owner w with
    | (.ok n, w) => (.ok n, pool, w)
    | (.error e, w) => (.error (.awake model.id model.name e), pool.release n, w)

/-- Completes the copy of a node by the copies of its children, or gives everything back. -/
def adopt (n : Node σ) (copies : Copies σ ω) : Except CloneError (Node σ) × Pool σ × ω :=
  let n := n.withChildren copies.children
  match copies.failure with
  | none => (.ok n, copies.pool, copies.world)
  | some e => (.error e, copies.pool.release n, copies.world)

/-- Copies a node whose children are copied by `copyChildren`. -/
def copyWith (B : Behavior ο σ ω) (owner : ο) (model : Node σ)
    (copyChildren : Pool σ → ω → Copies σ ω) (pool : Pool σ) (w : ω) :
    Except CloneError (Node σ) × Pool σ × ω :=
  match model.acquireAwake B owner pool w with
  | (.error e, pool, w) => (.error e, pool, w)
  | (.ok n, pool, w) => n.adopt (copyChildren pool w)

mutual

/-- Copies a subtree for an owner. -/
def copy (B : Behavior ο σ ω) (owner : ο) :
    Node σ → Pool σ → ω → Except CloneError (Node σ) × Pool σ × ω
  | leaf tag life state, pool, w =>
    copyWith B owner (leaf tag life state) (fun pool w => ⟨[], none, pool, w⟩) pool w
  | composite tag life kind resume children, pool, w =>
    copyWith B owner (composite tag life kind resume children) (copies B owner children) pool w
  | decorator tag life kind memory none, pool, w =>
    copyWith B owner (decorator tag life kind memory none) (fun pool w => ⟨[], none, pool, w⟩)
      pool w
  | decorator tag life kind memory (some child), pool, w =>
    copyWith B owner (decorator tag life kind memory (some child))
      (fun pool w =>
        match copy B owner child pool w with
        | (.ok c, pool, w) => ⟨[c], none, pool, w⟩
        | (.error e, pool, w) => ⟨[], some e, pool, w⟩) pool w
termination_by structural n => n

/-- Copies subtrees in order, up to the first that fails. -/
def copies (B : Behavior ο σ ω) (owner : ο) : List (Node σ) → Pool σ → ω → Copies σ ω
  | [], pool, w => ⟨[], none, pool, w⟩
  | c :: rest, pool, w =>
    match copy B owner c pool w with
    | (.error e, pool, w) => ⟨[], some e, pool, w⟩
    | (.ok c, pool, w) =>
      let r := copies B owner rest pool w
      { r with children := c :: r.children }
termination_by structural ns => ns

end

end Node

namespace Tree

/-- Makes an independent instance of a prototype for an owner. -/
def instantiate (B : Behavior ο σ ω) (t : Tree ο σ) (owner : ο) (host : Host σ ω) :
    Except CloneError (Tree ο σ) × Host σ ω :=
  if t.isInstance then (.error .notAPrototype, host)
  else
    let r := t.root.copy B owner host.pool host.world
    (r.1.map fun root => ⟨root, t.registry, some owner, true, none⟩,
      { host with pool := r.2.1, world := r.2.2 })

/-- Hands every node back to the pool. -/
def release (t : Tree ο σ) (pool : Pool σ) : Pool σ := pool.release t.root

end Tree

end BehaviorTree
