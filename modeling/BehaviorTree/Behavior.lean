import BehaviorTree.Blackboard.Basic
import BehaviorTree.Status

/-!
# Leaf behaviour

The engine knows a leaf by five hooks. A hook sees the whole blackboard and hands back what it may
change: the leaf's own state, the local entries, and the world outside. Because it hands back no
more than the local entries, no hook can reach into an enclosing scope.
-/

namespace BehaviorTree

/-- Why a leaf cannot be bound to its owner. -/
inductive AwakeError where
  /-- The owner is not of the expected type. -/
  | ownerType (expected : String)
  /-- The owner lacks a binding. -/
  | missingBinding (binding : String)
  deriving DecidableEq, Repr

/-- The error in words. -/
def AwakeError.message : AwakeError → String
  | .ownerType expected => "owner context is not a `" ++ expected ++ "`"
  | .missingBinding binding => "missing host binding `" ++ binding ++ "`"

/-- What a hook leaves behind: the leaf's state, the local entries and the world. -/
structure Effect (σ ω : Type) where
  state : σ
  entries : Entries
  world : ω

/-- The hooks of leaves with states `σ`, for owners `ο`, in a world `ω`. -/
structure Behavior (ο σ ω : Type) where
  /-- Binds a new copy of the leaf to its owner. -/
  awake : ο → σ → ω → Except AwakeError σ × ω
  /-- Opens an activation. -/
  start : σ → Blackboard → ω → Effect σ ω
  /-- Works for one tick. -/
  run : σ → Blackboard → ω → Status × Effect σ ω
  /-- Closes an activation, whether it ended or was aborted. -/
  stop : σ → Blackboard → ω → Effect σ ω
  /-- Says whether the leaf holds, without advancing it. -/
  evaluate : σ → Blackboard → ω → Status × ω

/-- The identity after this one. -/
def ScopeId.next (id : ScopeId) : ScopeId := ⟨id.number + 1⟩

/-- What lies outside all trees: the world, and the next unused scope identity. -/
structure Outside (ω : Type) where
  world : ω
  fresh : ScopeId

/-- Where a node runs: its blackboard and what lies outside. -/
structure Env (ω : Type) extends Outside ω where
  board : Blackboard

/-- The surroundings after a hook: its entries become the local ones. -/
def Env.after {σ ω : Type} (env : Env ω) (e : Effect σ ω) : Env ω :=
  { env with board := env.board.withEntries e.entries, world := e.world }

end BehaviorTree
