import BehaviorTree.Node.Edit
import BehaviorTree.Node.Run

/-!
# Nodes that are edited between runs

A host that has a node to itself runs and aborts it, and between that adds and removes children, in
any order. What each of these keeps of a node is kept however they follow one another
(`Handled.keeps`).
-/

namespace BehaviorTree

variable {ο σ ω : Type}

/-- What a host does with a node. -/
inductive Handling (σ ω : Type) where
  | run (env : Env ω)
  | abort (env : Env ω)
  | add (child : Node σ)
  | remove (index : Nat)

namespace Node

/-- What becomes of the node; an edit that is refused leaves it as it is. -/
def handle (B : Behavior ο σ ω) (n : Node σ) : Handling σ ω → Node σ
  | .run env => (n.run B env).node
  | .abort env => (n.abort B env).1
  | .add child =>
    match n.addChild child with
    | .ok m => m
    | .error _ => n
  | .remove index =>
    match n.removeChild index with
    | some (_, m) => m
    | none => n

/-- Whether a node becomes another by handlings, each of which fits the node as it is then. -/
inductive Handled (B : Behavior ο σ ω) (Fits : Node σ → Handling σ ω → Prop) (n : Node σ) :
    Node σ → Prop where
  | refl : Handled B Fits n n
  | step {m : Node σ} (h : Handled B Fits n m) (a : Handling σ ω) (ha : Fits m a) :
      Handled B Fits n (m.handle B a)

variable {B : Behavior ο σ ω} {Fits : Node σ → Handling σ ω → Prop} {n m : Node σ}

/-- What every handling that fits keeps of a node is kept by any number of them. -/
theorem Handled.keeps {P : Node σ → Prop} (hP : ∀ m a, Fits m a → P m → P (m.handle B a))
    (h : Handled B Fits n m) (hn : P n) : P m := by
  induction h with
  | refl => exact hn
  | step _ a ha ih => exact hP _ a ha ih

/-- An edit changes of a decorator only whether it has a child. -/
theorem handle_add_decorator (tag : Tag) (life : Life) (kind : DecoratorKind) (memory : Memory)
    (child : Option (Node σ)) (c : Node σ) :
    (decorator tag life kind memory child).handle B (.add c) =
      decorator tag life kind memory (child.or (some c)) := by
  cases child <;> rfl

/-- A decorator loses its child when the first one is removed, and nothing otherwise. -/
theorem handle_remove_decorator (tag : Tag) (life : Life) (kind : DecoratorKind) (memory : Memory)
    (child : Option (Node σ)) (index : Nat) :
    (decorator tag life kind memory child).handle B (.remove index) =
      decorator tag life kind memory (if index = 0 then none else child) := by
  by_cases hi : index = 0
  · cases child <;> simp [handle, removeChild, hi]
  · simp [handle, removeChild, hi]

end Node

end BehaviorTree
