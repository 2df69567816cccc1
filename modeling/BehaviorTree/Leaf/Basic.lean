import BehaviorTree.Guard.Engage
import BehaviorTree.Guard.Patrol
import BehaviorTree.Leaf.Owner
import BehaviorTree.Leaf.Script
import BehaviorTree.Leaf.Wait

/-!
# The leaves

The leaves that come with the engine: conditions, actions and timed waits, reading and writing
single keys, scripted leaves, and the two leaves of the guard demonstration. `Leaf.behavior` gives
their hooks. A hook whose typed read fails answers failure and leaves the error in the world.
-/

namespace BehaviorTree

/-- The state of a leaf. -/
inductive Leaf where
  /-- Succeeds while a condition on the blackboard holds. -/
  | condition (holds : Blackboard → Except AccessError Bool)
  /-- Does the same every tick and reports what comes of it. -/
  | action (step : Blackboard → World → Status × Entries × World)
  | wait (x : Wait)
  /-- Writes a value and succeeds. -/
  | setValue (key : String) (value : Value)
  /-- Succeeds while a key is visible with an expected value. -/
  | compareValue (key : String) (expected : Value)
  | patrol (p : Patrol)
  | engage (e : Engage)
  | script (s : Script)

namespace Leaf

/-- The default name of a node with the leaf. -/
def name : Leaf → String
  | condition _ => "Condition"
  | action _ => "Action"
  | wait _ => "Wait"
  | setValue .. => "SetValue"
  | compareValue .. => "CompareValue"
  | patrol _ => "Patrol"
  | engage _ => "Engage"
  | script _ => "Script"

/-- The patrol that a leaf is. -/
def patrol? : Leaf → Option Patrol
  | patrol p => some p
  | _ => none

/-- An action that carries out commands and then answers `yes`, or `no` when a test fails. -/
def commanded (commands : List Command) (test : Option Predicate) (yes no : Status) : Leaf :=
  action fun b w =>
    let r := Command.applyAll commands b w
    match test with
    | none => (yes, r.1.entries, r.2)
    | some p =>
      match p.holds r.1 with
      | .ok holds => (if holds then yes else no, r.1.entries, r.2)
      | .error e => (.failure, r.1.entries, r.2.fail e)

/-- A hook that changes nothing. -/
def idle (x : Leaf) (b : Blackboard) (w : World) : Effect Leaf World := ⟨x, b.entries, w⟩

/-- Success while a test holds; a failed read is failure, and is left in the world. -/
def check (test : Except AccessError Bool) (w : World) : Status × World :=
  match test with
  | .ok holds => (.ofBool holds, w)
  | .error e => (.failure, w.fail e)

/-- Whether a key is visible with an expected value. -/
def visibleIs (b : Blackboard) (key : String) (expected : Value) : Bool :=
  (b.value? key).any (·.agrees expected)

/-- The result of a hook that may fail to read. -/
def attempt {α : Type} (x : Leaf) (b : Blackboard) (w : World)
    (r : Except AccessError α) (k : α → Status × Leaf × Blackboard) :
    Status × Effect Leaf World :=
  match r with
  | .ok a => let y := k a; (y.1, y.2.1.idle y.2.2 w)
  | .error e => (.failure, x.idle b (w.fail e))

/-- Binds a leaf to an owner. -/
def awake (owner : Owner) (x : Leaf) (w : World) : Except AwakeError Leaf × World :=
  match x with
  | patrol p => ((p.awake owner.guard?).map patrol, w)
  | script s => let r := s.awake owner.host? w; (r.1.map script, r.2)
  | _ => (.ok x, w)

/-- Opens an activation. -/
def start (x : Leaf) (b : Blackboard) (w : World) : Effect Leaf World :=
  match x with
  | wait t => (wait t.start).idle b w
  | engage e => (engage e.start).idle b w
  | script s => let r := s.start b w; ⟨script r.state, r.entries, r.world⟩
  | _ => x.idle b w

/-- Works for one tick. -/
def run (x : Leaf) (b : Blackboard) (w : World) : Status × Effect Leaf World :=
  match x with
  | condition holds => let r := check (holds b) w; (r.1, x.idle b r.2)
  | action step => let r := step b w; (r.1, ⟨x, r.2.1, r.2.2⟩)
  | wait t => x.attempt b w (t.run b) fun r => (r.1, wait r.2, b)
  | setValue key value => (.success, x.idle (b.set key value) w)
  | compareValue key expected => (.ofBool (visibleIs b key expected), x.idle b w)
  | patrol p => x.attempt b w (p.run b) fun r => (r.1, patrol r.2.1, r.2.2)
  | engage e => x.attempt b w (e.run b) fun r => (r.1, engage r.2.1, r.2.2)
  | script s => let r := s.run b w; (r.1, ⟨script r.2.state, r.2.entries, r.2.world⟩)

/-- Closes an activation. -/
def stop (x : Leaf) (b : Blackboard) (w : World) : Effect Leaf World :=
  match x with
  | script s => let r := s.stop b w; ⟨script r.state, r.entries, r.world⟩
  | _ => x.idle b w

/-- Answers a probe; a leaf with no condition of its own holds. -/
def evaluate (x : Leaf) (b : Blackboard) (w : World) : Status × World :=
  match x with
  | condition holds => check (holds b) w
  | compareValue key expected => (.ofBool (visibleIs b key expected), w)
  | engage _ => check (Engage.threatened b) w
  | script s => s.evaluate b w
  | _ => (.success, w)

/-- The hooks of the leaves. -/
def behavior : Behavior Owner Leaf World := ⟨awake, start, run, stop, evaluate⟩

end Leaf

end BehaviorTree
