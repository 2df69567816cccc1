import BehaviorTree.Leaf.World

/-!
# Commands on blackboards

What a scripted hook does, as data. Commands write to the local scope and to the journal.
-/

namespace BehaviorTree

/-- A value in a script: a fixed one, or an object that is made anew whenever it is written. -/
inductive Template where
  | fixed (value : Value)
  | fresh (payload : Payload)
  deriving DecidableEq

/-- The value that a template stands for. -/
def Template.make (t : Template) (w : World) : Value × World :=
  match t with
  | .fixed value => (value, w)
  | .fresh payload => w.newObject payload

/-- A step of a scripted hook. -/
inductive Command where
  | set (key : String) (value : Template)
  /-- Adds to the integer of a key, zero if there is none. -/
  | increment (key : String) (amount : Int64)
  /-- Writes the visible value of a key, if there is one, under another key. -/
  | copy (source target : String)
  | remove (key : String)
  | clear
  /-- Notes the visible value of a key. -/
  | see (key : String)
  /-- Notes the number of enclosing scopes. -/
  | measure
  deriving DecidableEq

namespace Command

/-- Carries out a command; one whose typed read fails changes nothing on the blackboard. -/
def apply (c : Command) (b : Blackboard) (w : World) : Blackboard × World :=
  match c with
  | set key value => let r := value.make w; (b.set key r.1, r.2)
  | increment key amount =>
    match b.getInt key 0 with
    | .ok n => (b.setInt key (n + amount), w)
    | .error e => (b, w.fail e)
  | copy source target =>
    match b.value? source with
    | some v => (b.set target v, w)
    | none => (b, w)
  | remove key => (b.remove key, w)
  | clear => (b.clear, w)
  | see key => (b, w.note (.seen key (b.value? key)))
  | measure => (b, w.note (.depth b.depth))

/-- Carries out commands in order. -/
def applyAll (cs : List Command) (b : Blackboard) (w : World) : Blackboard × World :=
  cs.foldl (fun r c => c.apply r.1 r.2) (b, w)

end Command

end BehaviorTree
