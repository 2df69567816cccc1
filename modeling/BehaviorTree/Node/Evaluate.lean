import BehaviorTree.Behavior
import BehaviorTree.Node.Basic

/-!
# Probing nodes

A probe asks whether a node's condition holds at the moment and advances nothing: a leaf is asked,
a composite holds by default, and a decorator changes the answer of its child as it would change
the result of a run. A scope decorator lets its child see the stored scope only if there is
something in it and the blackboard is the one it was last used under.
-/

namespace BehaviorTree

variable {ο σ ω : Type}

/-- The blackboard on which the child of a scope decorator is probed. -/
def Memory.probeBoard (m : Memory) (b : Blackboard) : Blackboard :=
  match m.scope with
  | none => b
  | some s => if !s.entries.isEmpty && m.enclosing == some b.id then .under s b else b

namespace Node

/-- Whether the node's condition holds, without advancing it. -/
def evaluate (B : Behavior ο σ ω) : Node σ → Blackboard → ω → Status × ω
  | leaf _ _ state, b, w => B.evaluate state b w
  | composite .., _, w => (.success, w)
  | decorator _ _ _ _ none, _, w => (.success, w)
  | decorator _ _ kind memory (some child), b, w =>
    match kind with
    | .invert => let r := evaluate B child b w; (r.1.invert, r.2)
    | .succeeder => let r := evaluate B child b w; (r.1.forgive, r.2)
    | .loop _ => evaluate B child b w
    | .scoped => evaluate B child (memory.probeBoard b) w
termination_by structural n => n

/-- The position of the first node whose flag is set and that gives the wanted answer. Nodes
without the flag are not probed, and none is probed after a hit. -/
def probe (B : Behavior ο σ ω) (flag : Flags → Bool) (wanted : Status) :
    List (Node σ) → Blackboard → ω → Option Nat × ω
  | [], _, w => (none, w)
  | n :: rest, b, w =>
    if flag n.flags then
      let r := n.evaluate B b w
      if r.1 = wanted then (some 0, r.2)
      else
        let r := probe B flag wanted rest b r.2
        (r.1.map (· + 1), r.2)
    else
      let r := probe B flag wanted rest b w
      (r.1.map (· + 1), r.2)

/-- A hit lies inside the probed list. -/
theorem probe_lt {B : Behavior ο σ ω} {flag : Flags → Bool} {wanted : Status} {k : Nat}
    {ns : List (Node σ)} {b : Blackboard} {w : ω} (h : (probe B flag wanted ns b w).1 = some k) :
    k < ns.length := by
  induction ns generalizing w k with
  | nil => simp [probe] at h
  | cons n rest ih =>
    simp only [probe] at h
    split at h
    · split at h
      · simp at h; simp [← h]
      · obtain ⟨j, hj, rfl⟩ := Option.map_eq_some_iff.mp h
        simpa using ih hj
    · obtain ⟨j, hj, rfl⟩ := Option.map_eq_some_iff.mp h
      simpa using ih hj

end Node

end BehaviorTree
