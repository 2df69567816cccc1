import BehaviorTree.Blackboard.Basic

/-!
# The clock

Once per update the host supplies a tick number and the seconds since the last one. Publishing
writes both under well-known keys, where leaves look them up through any number of scopes.
-/

namespace BehaviorTree

/-- The clock signal of one update. -/
structure Clock where
  tick : UInt64
  seconds : Float32
  deriving DecidableEq

namespace Clock

/-- The key of the tick number. -/
def tickKey : String := "bt.clock.tick"

/-- The key of the seconds since the previous tick. -/
def deltaKey : String := "bt.clock.dt"

/-- The signal of the following update with the same step. -/
def next (c : Clock) : Clock := { c with tick := c.tick + 1 }

/-- Writes the signal into the local scope; the tick number is stored as a signed word. -/
def publish (c : Clock) (b : Blackboard) : Blackboard :=
  (b.set tickKey (.int c.tick.toInt64)).set deltaKey (.float c.seconds)

end Clock

end BehaviorTree
