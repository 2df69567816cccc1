import BehaviorTree.Leaf.Basic
import BehaviorTree.Tree.Basic

/-!
# The guard's tree

A guard engages a threat as soon as it sees one. Otherwise it patrols: it walks to a waypoint and
lingers there, with a blackboard scope of its own.
-/

namespace BehaviorTree

namespace Guard

/-- How many shots make a burst. -/
def burst : UInt32 := 3

/-- The nodes of the guard's tree, with identifiers counted from `first` on. -/
def root (first : Nat) (linger : Float32) : Node Leaf :=
  let tag (i : Nat) (name : String) : Tag := .plain (.ofNat (first + i)) name
  .newComposite (tag 0 "guard") .selector [
    .newLeaf { tag 1 "engage" with flags := ⟨false, true⟩ } (.engage (.ofBurst burst)),
    .newDecorator (tag 2 "patrol") .scoped (some (
      .newComposite (tag 3 CompositeKind.sequencer.label) .sequencer [
        .newLeaf (tag 4 "walk") (.patrol .unbound),
        .newLeaf (tag 5 "linger") (.wait (.ofSeconds linger))]))]

/-- The prototype of the guard's tree. -/
def prototype (first : Nat) (linger : Float32) : Except TreeError (Tree Owner Leaf) :=
  Tree.prototype (root first linger)

end Guard

end BehaviorTree
