/-!
# Results and lifecycle states

The three answers a node can give when it runs, and the state that stays on the node between
runs. A status embeds into the states, and only `NodeState.notStarted` lies outside its image.
-/

namespace BehaviorTree

/-- The answer of one run: suspended until the next tick, or ended one way or the other. -/
inductive Status where
  | running
  | success
  | failure
  deriving DecidableEq, Repr

namespace Status

/-- Whether the answer suspends the activation. -/
def isRunning (s : Status) : Bool := s == .running

/-- Whether the activation ended well. -/
def isSuccess (s : Status) : Bool := s == .success

/-- Whether the activation ended badly. -/
def isFailure (s : Status) : Bool := s == .failure

/-- Whether the activation ended at all. -/
def isTerminal (s : Status) : Bool := !s.isRunning

/-- Success and failure change places; a suspended run stays suspended. -/
def invert : Status → Status
  | .running => .running
  | .success => .failure
  | .failure => .success

/-- Failure counts as success; the other answers stay. -/
def forgive : Status → Status
  | .failure => .success
  | s => s

/-- Success exactly when the condition holds. -/
def ofBool (holds : Bool) : Status := if holds then .success else .failure

/-- The status in words. -/
def name : Status → String
  | .running => "Running"
  | .success => "Success"
  | .failure => "Failure"

/-- Inverting twice leaves an answer. -/
@[simp] theorem invert_invert (s : Status) : s.invert.invert = s := by cases s <;> rfl

end Status

/-- What a node remembers of its last run; an aborted or fresh node is `notStarted`. -/
inductive NodeState where
  | notStarted
  | running
  | success
  | failure
  deriving DecidableEq, Repr

namespace NodeState

/-- The state a node is left in by an answer. -/
def ofStatus : Status → NodeState
  | .running => .running
  | .success => .success
  | .failure => .failure

/-- The answer that leaves this state, if there is one. -/
def status? : NodeState → Option Status
  | .notStarted => none
  | .running => some .running
  | .success => some .success
  | .failure => some .failure

/-- The state in words. -/
def name : NodeState → String
  | .notStarted => "NotStarted"
  | .running => "Running"
  | .success => "Success"
  | .failure => "Failure"

instance : Inhabited NodeState := ⟨.notStarted⟩

/-- A node is left running exactly by the answer that suspends. -/
theorem ofStatus_eq_running_iff {s : Status} : ofStatus s = .running ↔ s = .running := by
  cases s <;> simp [ofStatus]

end NodeState

end BehaviorTree
