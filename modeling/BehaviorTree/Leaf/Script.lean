import BehaviorTree.Behavior
import BehaviorTree.Leaf.Command
import BehaviorTree.Leaf.Predicate

/-!
# Scripted leaves

A scripted leaf notes every call of its hooks in the journal, carries out the commands of the
hook, and answers from a list of results over and over. A result that the host has set for its
label takes precedence.
-/

namespace BehaviorTree

/-- What a scripted leaf wants of its owner. -/
inductive Binding where
  /-- Nothing. -/
  | none
  /-- Nothing, but the call is noted. -/
  | noted
  /-- The owner has to be a host, whose name is remembered. -/
  | host
  /-- A binding that no owner has. -/
  | missing (binding : String)
  deriving DecidableEq

/-- How a scripted leaf answers a probe. -/
inductive ScriptProbe where
  | fixed (status : Status)
  | test (p : Predicate)

/-- A scripted leaf. -/
structure Script where
  label : String
  /-- The results of the runs, repeated when they are used up. -/
  answers : List Status
  /-- Whether an activation begins with the first result again. -/
  resets : Bool
  probe : ScriptProbe
  binding : Binding
  onStart : List Command
  onRun : List Command
  onStop : List Command
  /-- How many results were given. -/
  position : Nat
  /-- The name of the host it was bound to. -/
  host : String

namespace Script

/-- Notes the call of a hook. -/
def note (s : Script) (hook : Hook) (w : World) : World := w.note (.hook s.label hook)

/-- Binds the leaf to a host, if its owner is one. -/
def awake (s : Script) (hostName : Option String) (w : World) : Except AwakeError Script × World :=
  match s.binding with
  | .none => (.ok s, w)
  | .noted => (.ok s, s.note .awake w)
  | .host =>
    let w := s.note .awake w
    match hostName with
    | some host => (.ok { s with host }, w)
    | Option.none => (.error (.ownerType "Host"), w)
  | .missing binding => (.error (.missingBinding binding), s.note .awake w)

/-- The effect of a hook that carries out commands. -/
def perform (s : Script) (commands : List Command) (b : Blackboard) (w : World) :
    Effect Script World :=
  let r := Command.applyAll commands b w
  ⟨s, r.1.entries, r.2⟩

/-- Opens an activation. -/
def start (s : Script) (b : Blackboard) (w : World) : Effect Script World :=
  let s' := if s.resets then { s with position := 0 } else s
  s'.perform s.onStart b (s.note .start w)

/-- The result whose turn it is. -/
def answer (s : Script) : Status := s.answers.getD (s.position % s.answers.length) .running

/-- Works for one tick. -/
def run (s : Script) (b : Blackboard) (w : World) : Status × Effect Script World :=
  let e := { s with position := s.position + 1 }.perform s.onRun b (s.note .run w)
  (e.world.outcomeOr s.label s.answer, e)

/-- Closes an activation. -/
def stop (s : Script) (b : Blackboard) (w : World) : Effect Script World :=
  s.perform s.onStop b (s.note .stop w)

/-- Answers a probe. -/
def evaluate (s : Script) (b : Blackboard) (w : World) : Status × World :=
  let w := s.note .evaluate w
  match w.outcomes[s.label]? with
  | some status => (status, w)
  | Option.none =>
    match s.probe with
    | .fixed status => (status, w)
    | .test p =>
      match p.holds b with
      | .ok holds => (.ofBool holds, w)
      | .error e => (.failure, w.fail e)

end Script

end BehaviorTree
