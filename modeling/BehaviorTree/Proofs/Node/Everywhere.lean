import BehaviorTree.Node.Walk

/-!
# Properties of all nodes of a subtree

A property holds everywhere in a subtree when it holds of each node in its pre-order, that is, of
the node itself and everywhere below each of its children. Two induction principles go with it:
from the children of a node to the node, and from all smaller nodes to the node.
-/

namespace BehaviorTree

namespace Node

variable {σ : Type} {P Q : Node σ → Prop}

/-- Whether a property holds of every node of the subtree. -/
def Everywhere (P : Node σ → Prop) (n : Node σ) : Prop := ∀ m ∈ n.preorder, P m

/-- The nodes below a list are those below one of its members. -/
theorem mem_preorders {m : Node σ} {ns : List (Node σ)} :
    m ∈ preorders ns ↔ ∃ c ∈ ns, m ∈ c.preorder := by
  induction ns with
  | nil => simp [preorders]
  | cons c rest ih => simp [preorders, ih]

/-- The pre-order of a child is part of the pre-order of its parent. -/
theorem mem_preorder_of_mem_children {m n c : Node σ} (hc : c ∈ n.children)
    (hm : m ∈ c.preorder) : m ∈ n.preorder := by
  rw [preorder_eq]
  exact List.mem_cons_of_mem _ (mem_preorders.mpr ⟨c, hc, hm⟩)

/-- A property holds everywhere if it holds of the node and everywhere below its children. -/
theorem everywhere_iff {n : Node σ} :
    n.Everywhere P ↔ P n ∧ ∀ c ∈ n.children, c.Everywhere P := by
  unfold Everywhere
  rw [preorder_eq]
  constructor
  · intro h
    refine ⟨h n (by simp), fun c hc m hm ↦ h m ?_⟩
    exact List.mem_cons_of_mem _ (mem_preorders.mpr ⟨c, hc, hm⟩)
  · rintro ⟨hn, hc⟩ m hm
    rcases List.mem_cons.mp hm with rfl | hm
    · exact hn
    · obtain ⟨c, hcm, hm⟩ := mem_preorders.mp hm
      exact hc c hcm m hm

/-- What holds everywhere holds of the node itself. -/
theorem Everywhere.here {n : Node σ} (h : n.Everywhere P) : P n := (everywhere_iff.mp h).1

/-- What holds everywhere holds everywhere below each child. -/
theorem Everywhere.below {n c : Node σ} (h : n.Everywhere P) (hc : c ∈ n.children) :
    c.Everywhere P := (everywhere_iff.mp h).2 c hc

/-- Induction over a subtree, from the children of a node to the node. -/
@[elab_as_elim]
theorem child_induction {motive : Node σ → Prop}
    (step : ∀ n : Node σ, (∀ c ∈ n.children, motive c) → motive n) (n : Node σ) : motive n := by
  induction hs : n.size using Nat.strongRecOn generalizing n with
  | ind size ih =>
    apply step n
    intro c hc
    exact ih c.size (by rw [← hs]; exact size_lt_of_mem_children hc) c rfl

/-- What holds everywhere in a subtree holds everywhere below each node of it. -/
theorem Everywhere.at_mem {n m : Node σ} (h : n.Everywhere P) (hm : m ∈ n.preorder) :
    m.Everywhere P := by
  induction n using child_induction with
  | step n ih =>
    rw [preorder_eq] at hm
    rcases List.mem_cons.mp hm with rfl | hm
    · exact h
    · obtain ⟨c, hc, hm⟩ := mem_preorders.mp hm
      exact ih c hc (h.below hc) hm

/-- Induction over a subtree, from all smaller nodes to the node. -/
@[elab_as_elim]
theorem size_induction {motive : Node σ → Prop}
    (step : ∀ n : Node σ, (∀ c : Node σ, c.size < n.size → motive c) → motive n) (n : Node σ) :
    motive n := by
  induction hs : n.size using Nat.strongRecOn generalizing n with
  | ind size ih =>
    apply step n
    intro c hc
    exact ih c.size (by rw [← hs]; exact hc) c rfl

end Node

end BehaviorTree
