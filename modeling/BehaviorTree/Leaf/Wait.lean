import BehaviorTree.Blackboard.Access
import BehaviorTree.Clock
import BehaviorTree.Status

/-!
# Timed waits

A waiting leaf adds up the clock's steps on the blackboard; a clock that is not published stands
still.
-/

namespace BehaviorTree

/-- Reports running until enough seconds have passed on the clock. -/
structure Wait where
  seconds : Float32
  elapsed : Float32

namespace Wait

/-- A wait of some seconds. -/
def ofSeconds (seconds : Float32) : Wait := ⟨seconds, 0⟩

/-- Opens an activation: no time has passed in it. -/
def start (x : Wait) : Wait := { x with elapsed := 0 }

/-- Lets the clock's step pass. -/
def run (x : Wait) (b : Blackboard) : Except AccessError (Status × Wait) :=
  (b.getFloat Clock.deltaKey 0).map fun step =>
    let elapsed := x.elapsed + step
    (if x.seconds ≤ elapsed then .success else .running, { x with elapsed })

end Wait

end BehaviorTree
