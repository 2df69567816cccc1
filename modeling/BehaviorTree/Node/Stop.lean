import BehaviorTree.Behavior
import BehaviorTree.Node.Basic

/-!
# Stopping and aborting nodes

Stopping closes an activation and is passed on to the descendants that are still running: a
parallel node aborts all of its running children, a sequencer or selector the one it would resume,
a decorator its started child. A scope decorator stops its child inside the scope and clears the
scope afterwards. Aborting stops a node that is started and forgets its state.
-/

namespace BehaviorTree

variable {ο σ ω : Type}

/-- The stored scope, unless the blackboard around it is another one than last time. -/
def Memory.keptScope (m : Memory) (enclosing : ScopeId) : Option Scope :=
  if m.enclosing.all (· == enclosing) then m.scope else none

/-- The memory after the scope was used under `enclosing`. -/
def Memory.keep (m : Memory) (enclosing : ScopeId) (s : Scope) : Memory :=
  { m with scope := some s, enclosing := some enclosing }

namespace Env

/-- Steps into the scope that a memory keeps for this blackboard, or into a new one. -/
def enter (env : Env ω) (m : Memory) : Env ω :=
  match m.keptScope env.board.id with
  | some s => { env with board := .under s env.board }
  | none => { env with board := .under (.empty env.fresh) env.board, fresh := env.fresh.next }

/-- Steps back out of a scope: the world moved on, the blackboard around the scope did not. -/
def leave (outer inner : Env ω) : Env ω := { inner with board := outer.board }

end Env

namespace Node

/-- Gives up a node whose stopping is `stop`: a started one is stopped, and the state is
forgotten in any case. -/
def abandon (n : Node σ) (stop : Env ω → Node σ × Env ω) (env : Env ω) : Node σ × Env ω :=
  if n.started then
    let r := stop env
    (r.1.withLife .fresh, r.2)
  else (n.withLife .fresh, env)

mutual

/-- Closes the activation of a node. -/
def stop (B : Behavior ο σ ω) : Node σ → Env ω → Node σ × Env ω
  | leaf tag life state, env =>
    let e := B.stop state env.board env.world
    (leaf tag life e.state, env.after e)
  | composite tag life kind resume children, env =>
    let r := match kind with
      | .parallel _ => stopRunning B children env
      | .sequencer | .selector => stopRunningAt B children resume env
    (composite tag life kind 0 r.1, r.2)
  | decorator tag life kind memory none, env => (decorator tag life kind memory none, env)
  | decorator tag life kind memory (some child), env =>
    match kind with
    | .scoped =>
      let inner := env.enter memory
      let r := if child.started then child.abandon (stop B child) inner else (child, inner)
      (decorator tag life kind (memory.keep env.board.id r.2.board.scope.cleared) (some r.1),
        env.leave r.2)
    | .invert | .succeeder | .loop _ =>
      let r := if child.started then child.abandon (stop B child) env else (child, env)
      (decorator tag life kind memory (some r.1), r.2)
termination_by structural n => n

/-- Aborts all nodes that are running. -/
def stopRunning (B : Behavior ο σ ω) : List (Node σ) → Env ω → List (Node σ) × Env ω
  | [], env => ([], env)
  | c :: rest, env =>
    let r := if c.state = .running then c.abandon (stop B c) env else (c, env)
    let rs := stopRunning B rest r.2
    (r.1 :: rs.1, rs.2)
termination_by structural ns => ns

/-- Aborts the node at an index if it is running. -/
def stopRunningAt (B : Behavior ο σ ω) :
    List (Node σ) → Nat → Env ω → List (Node σ) × Env ω
  | [], _, env => ([], env)
  | c :: rest, 0, env =>
    let r := if c.state = .running then c.abandon (stop B c) env else (c, env)
    (r.1 :: rest, r.2)
  | c :: rest, index + 1, env =>
    let rs := stopRunningAt B rest index env
    (c :: rs.1, rs.2)
termination_by structural ns => ns

end

/-- Cancels the activation of a node and forgets its state. -/
def abort (B : Behavior ο σ ω) (n : Node σ) (env : Env ω) : Node σ × Env ω :=
  n.abandon (n.stop B) env

/-- Aborts the node at an index, if there is one. -/
def abortAt (B : Behavior ο σ ω) : List (Node σ) → Nat → Env ω → List (Node σ) × Env ω
  | [], _, env => ([], env)
  | c :: rest, 0, env =>
    let r := c.abort B env
    (r.1 :: rest, r.2)
  | c :: rest, index + 1, env =>
    let rs := abortAt B rest index env
    (c :: rs.1, rs.2)

/-- Giving a node up leaves its size, if stopping it does. -/
theorem size_abandon {n : Node σ} {stop : Env ω → Node σ × Env ω} {env : Env ω}
    (h : ∀ env, (stop env).1.size = n.size) : (n.abandon stop env).1.size = n.size := by
  unfold abandon
  split <;> simp [h]

mutual

/-- Stopping keeps the size of a subtree. -/
theorem size_stop (B : Behavior ο σ ω) :
    (n : Node σ) → (env : Env ω) → (n.stop B env).1.size = n.size
  | leaf .., _ => by simp [stop, size]
  | composite _ _ kind resume children, env => by
    cases kind <;> simp [stop, size, sizes_stopRunning B, sizes_stopRunningAt B]
  | decorator _ _ _ _ none, _ => by simp [stop, size]
  | decorator _ _ kind _ (some child), env => by
    have ih := fun env => size_stop B child env
    cases kind <;> simp only [stop, size] <;> split <;> simp [size_abandon ih]

/-- Stopping keeps the sizes of subtrees. -/
theorem sizes_stopRunning (B : Behavior ο σ ω) :
    (ns : List (Node σ)) → (env : Env ω) → sizes (stopRunning B ns env).1 = sizes ns
  | [], _ => by simp [stopRunning]
  | c :: rest, env => by
    have ih := fun env => size_stop B c env
    simp only [stopRunning, sizes, sizes_stopRunning B rest]
    split <;> simp [size_abandon ih]

/-- Stopping keeps the sizes of subtrees. -/
theorem sizes_stopRunningAt (B : Behavior ο σ ω) :
    (ns : List (Node σ)) → (index : Nat) → (env : Env ω) →
      sizes (stopRunningAt B ns index env).1 = sizes ns
  | [], _, _ => by simp [stopRunningAt]
  | c :: rest, 0, env => by
    have ih := fun env => size_stop B c env
    simp only [stopRunningAt, sizes]
    split <;> simp [size_abandon ih]
  | c :: rest, index + 1, env => by
    simp only [stopRunningAt, sizes, sizes_stopRunningAt B rest index]

end

/-- Aborting keeps the size of a subtree. -/
theorem size_abort (B : Behavior ο σ ω) (n : Node σ) (env : Env ω) :
    (n.abort B env).1.size = n.size :=
  size_abandon (size_stop B n)

/-- Whether or not it is aborted, each node keeps its size. -/
theorem map_size_abortAt (B : Behavior ο σ ω) (ns : List (Node σ)) (index : Nat) (env : Env ω) :
    (abortAt B ns index env).1.map size = ns.map size := by
  induction ns generalizing index with
  | nil => rfl
  | cons c rest ih => cases index <;> simp [abortAt, size_abort, ih]

end Node

end BehaviorTree
