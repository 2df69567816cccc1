import BehaviorTree.Blackboard.Access
import BehaviorTree.Status

/-!
# Engaging a threat

An engaging leaf fires a burst, one shot a tick, as long as the threat is in sight. A probe of it
asks for the threat, so that it can take over from the patrol.
-/

namespace BehaviorTree

/-- A leaf that fires a burst. -/
structure Engage where
  burst : UInt32
  /-- The shots fired in the current activation. -/
  fired : UInt32
  deriving DecidableEq, Repr

namespace Engage

/-- The key of the flag for a threat in sight. -/
def threatKey : String := "guard.threat"

/-- The key of the number of shots fired. -/
def shotsKey : String := "guard.shots"

/-- A leaf that fires a burst of a given length. -/
def ofBurst (burst : UInt32) : Engage := ⟨burst, 0⟩

/-- Opens an activation: no shot was fired in it. -/
def start (e : Engage) : Engage := { e with fired := 0 }

/-- Whether a threat is in sight. -/
def threatened (b : Blackboard) : Except AccessError Bool := b.getBool threatKey false

/-- Fires once, or fails when no threat is in sight. -/
def run (e : Engage) (b : Blackboard) : Except AccessError (Status × Engage × Blackboard) := do
  if ← threatened b then
    let fired := e.fired + 1
    let shots ← b.getInt shotsKey 0
    return (if e.burst ≤ fired then .success else .running, { e with fired },
      b.setInt shotsKey (shots + 1))
  else
    return (.failure, e, b)

end Engage

end BehaviorTree
