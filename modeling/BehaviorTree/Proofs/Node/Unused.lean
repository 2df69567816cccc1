import BehaviorTree.Proofs.Node.Everywhere

/-!
# Unused nodes

A node is unused when it carries no trace of an activation: it was built and never run, or it was
scrubbed since. A stored scope may be there, but without entries and bound to no enclosing one.
-/

namespace BehaviorTree

/-- A memory without entries in the stored scope, if there is one. -/
def Memory.Vacant (m : Memory) : Prop := ∀ s ∈ m.scope, s.entries = ∅

/-- A fresh memory has no entries. -/
theorem Memory.vacant_fresh : Memory.fresh.Vacant := fun _ hs ↦ by cases hs

namespace Node

variable {σ : Type}

/-- A node without a trace of an activation. -/
def Unused : Node σ → Prop
  | leaf _ life _ => life = .fresh
  | composite _ life _ resume _ => life = .fresh ∧ resume = 0
  | decorator _ life _ memory _ =>
    life = .fresh ∧ memory.count = 0 ∧ memory.enclosing = none ∧ memory.Vacant

/-- A subtree of which no node was ever run. -/
abbrev AllUnused (n : Node σ) : Prop := n.Everywhere Unused

/-- An unused node has a fresh life. -/
theorem Unused.life_eq {n : Node σ} (h : n.Unused) : n.life = .fresh := by
  cases n with
  | leaf => exact h
  | composite => exact h.1
  | decorator => exact h.1

/-- A leaf that was just built is unused. -/
theorem allUnused_newLeaf (tag : Tag) (state : σ) : AllUnused (newLeaf tag state) :=
  everywhere_iff.mpr ⟨rfl, fun _ hc ↦ by cases hc⟩

/-- A composite that was just built over unused children is unused. -/
theorem allUnused_newComposite {tag : Tag} {kind : CompositeKind} {children : List (Node σ)}
    (h : ∀ c ∈ children, AllUnused c) : AllUnused (newComposite tag kind children) :=
  everywhere_iff.mpr ⟨⟨rfl, rfl⟩, h⟩

/-- A decorator that was just built over an unused child, or over none, is unused. -/
theorem allUnused_newDecorator {tag : Tag} {kind : DecoratorKind} {child : Option (Node σ)}
    (h : ∀ c ∈ child, AllUnused c) : AllUnused (newDecorator tag kind child) :=
  everywhere_iff.mpr ⟨⟨rfl, rfl, rfl, Memory.vacant_fresh⟩,
    fun c hc ↦ h c (Option.mem_toList.mp hc)⟩

end Node

end BehaviorTree
