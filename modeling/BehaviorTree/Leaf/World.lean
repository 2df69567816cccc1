import BehaviorTree.Blackboard.Access
import BehaviorTree.Status

/-!
# The world of leaves

What leaves can touch besides their own state and the blackboard: a journal of what recording
leaves saw, results that a host has set for them, the supply of object identities, and the first
typed read that failed.
-/

namespace BehaviorTree

/-- The hooks of a leaf, as the journal names them. -/
inductive Hook where
  | awake
  | start
  | run
  | stop
  | evaluate
  deriving DecidableEq, Repr

/-- The name of a hook in a journal line. -/
def Hook.name : Hook → String
  | .awake => "awake"
  | .start => "start"
  | .run => "run"
  | .stop => "stop"
  | .evaluate => "eval"

/-- A line of the journal. -/
inductive Line where
  /-- A hook of the leaf with a label was called. -/
  | hook (label : String) (hook : Hook)
  /-- What was visible under a key. -/
  | seen (key : String) (value : Option Value)
  /-- How many scopes lay around the local one. -/
  | depth (number : Nat)
  deriving DecidableEq

/-- The world that leaves share. -/
structure World where
  /-- The lines written so far, first one first. -/
  journal : Array Line
  /-- Results that replace those of recording leaves, by label. -/
  outcomes : Std.ExtTreeMap String Status
  /-- The first typed read that failed. -/
  fault : Option AccessError
  /-- The next unused object identity. -/
  freshObject : ObjectId

namespace World

/-- A world in which nothing has happened. -/
def initial : World := ⟨#[], ∅, none, ⟨0⟩⟩

/-- Writes a line into the journal. -/
def note (w : World) (line : Line) : World := { w with journal := w.journal.push line }

/-- Records a typed read that failed, unless there was one before. -/
def fail (w : World) (e : AccessError) : World := { w with fault := w.fault.or (some e) }

/-- Sets or removes the result for a label. -/
def setOutcome (w : World) (label : String) (status : Option Status) : World :=
  { w with outcomes := match status with
      | some s => w.outcomes.insert label s
      | none => w.outcomes.erase label }

/-- The result set for a label, or else another one. -/
def outcomeOr (w : World) (label : String) (status : Status) : Status :=
  w.outcomes.getD label status

/-- An object that carries a payload and has an identity of its own. -/
def newObject (w : World) (payload : Payload) : Value × World :=
  (.object w.freshObject payload, { w with freshObject := ⟨w.freshObject.number + 1⟩ })

end World

end BehaviorTree
