import BehaviorTree.Blackboard.Access

/-!
# Predicates on blackboards

Conditions as data: comparisons of typed values with a default for an invisible key, visibility,
and the boolean operators, which look at their operands from left to right and stop early.
-/

namespace BehaviorTree

/-- A condition on a blackboard. -/
inductive Predicate where
  | const (holds : Bool)
  /-- The flag of a key. -/
  | flag (key : String) (default : Bool)
  /-- The integer of a key is at least the bound. -/
  | atLeast (key : String) (default bound : Int64)
  /-- The number of a key is below the bound. -/
  | lessThan (key : String) (default bound : Float32)
  /-- The key is visible. -/
  | visible (key : String)
  /-- The key is in the local scope. -/
  | isLocal (key : String)
  | not (p : Predicate)
  | all (ps : List Predicate)
  | any (ps : List Predicate)
  deriving Inhabited

namespace Predicate

mutual

/-- Whether the condition holds; a typed read that fails makes it fail. -/
def holds : Predicate → Blackboard → Except AccessError Bool
  | const value, _ => .ok value
  | flag key default, b => b.getBool key default
  | atLeast key default bound, b => (b.getInt key default).map fun n => decide (bound ≤ n)
  | lessThan key default bound, b => (b.getFloat key default).map fun x => decide (x < bound)
  | visible key, b => .ok (b.contains key)
  | isLocal key, b => .ok (b.containsLocal key)
  | not p, b => (holds p b).map (! ·)
  | all ps, b => holdAll ps b
  | any ps, b => holdAny ps b
termination_by structural p => p

/-- Whether all conditions hold; none after the first that does not is looked at. -/
def holdAll : List Predicate → Blackboard → Except AccessError Bool
  | [], _ => .ok true
  | p :: ps, b =>
    match holds p b with
    | .ok true => holdAll ps b
    | r => r
termination_by structural ps => ps

/-- Whether some condition holds; none after the first that does is looked at. -/
def holdAny : List Predicate → Blackboard → Except AccessError Bool
  | [], _ => .ok false
  | p :: ps, b =>
    match holds p b with
    | .ok false => holdAny ps b
    | r => r
termination_by structural ps => ps

end

end Predicate

end BehaviorTree
