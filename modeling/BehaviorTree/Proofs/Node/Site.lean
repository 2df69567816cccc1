import BehaviorTree.Proofs.Node.Leaves
import BehaviorTree.Proofs.Node.Projection
import Mathlib.Data.List.Flatten

/-!
# The sites of leaves

A leaf is told from all others by where it stands: its identifier, and the scope decorators it lies
below. `sited` writes this into the leaf states, where hooks can read it and none can change it.
-/

namespace BehaviorTree

variable {σ : Type}

/-- Where a leaf stands in a tree. -/
structure Site where
  id : NodeId
  /-- The scope decorators above the leaf, innermost first. -/
  scopes : List NodeId
  deriving DecidableEq

/-- The scope decorators above the child of a decorator, given those above the decorator. -/
def DecoratorKind.scopesBelow (kind : DecoratorKind) (id : NodeId) (scopes : List NodeId) :
    List NodeId :=
  match kind with
  | .scoped => id :: scopes
  | .invert | .succeeder | .loop _ => scopes

namespace Node

mutual

/-- The subtree with its site in each leaf. -/
def sited (scopes : List NodeId) : Node σ → Node (Site × σ)
  | leaf tag life state => leaf tag life (⟨tag.id, scopes⟩, state)
  | composite tag life kind resume children =>
    composite tag life kind resume (sitedAll scopes children)
  | decorator tag life kind memory none => decorator tag life kind memory none
  | decorator tag life kind memory (some child) =>
    decorator tag life kind memory (some (sited (kind.scopesBelow tag.id scopes) child))
termination_by structural n => n

/-- Several subtrees with its site in each leaf. -/
def sitedAll (scopes : List NodeId) : List (Node σ) → List (Node (Site × σ))
  | [] => []
  | c :: rest => sited scopes c :: sitedAll scopes rest
termination_by structural ns => ns

end

private theorem sitedAll_eq_map (scopes : List NodeId) (ns : List (Node σ)) :
    sitedAll scopes ns = ns.map (sited scopes) := by
  induction ns with
  | nil => rfl
  | cons c rest ih => rw [sitedAll, ih, List.map_cons]

/-- The children of a composite have its scopes around them. -/
@[simp] theorem sited_composite (scopes : List NodeId) (tag : Tag) (life : Life)
    (kind : CompositeKind) (resume : Nat) (children : List (Node σ)) :
    (composite tag life kind resume children).sited scopes =
      composite tag life kind resume (children.map (sited scopes)) := by
  rw [sited, sitedAll_eq_map]

/-- The child of a decorator has its scopes around it, and the decorator if it is one of scope. -/
@[simp] theorem sited_decorator (scopes : List NodeId) (tag : Tag) (life : Life)
    (kind : DecoratorKind) (memory : Memory) (child : Option (Node σ)) :
    (decorator tag life kind memory child).sited scopes =
      decorator tag life kind memory (child.map (sited (kind.scopesBelow tag.id scopes))) := by
  cases child <;> rfl

/-- Sites can be taken away again. -/
theorem map_snd_sited (scopes : List NodeId) (n : Node σ) : (n.sited scopes).map Prod.snd = n := by
  induction n using child_induction generalizing scopes with
  | step n ih =>
    cases n with
    | leaf => rfl
    | composite tag life kind resume children =>
      rw [sited_composite, map_composite, List.map_map]
      congr 1
      exact (List.map_congr_left fun c hc ↦ ih c hc scopes).trans (List.map_id _)
    | decorator tag life kind memory child =>
      cases child with
      | none => rfl
      | some child =>
        have hc := ih child (by simp [children]) (kind.scopesBelow tag.id scopes)
        simp [hc]

/-- A node stands before the nodes below its children. -/
theorem ids_eq (n : Node σ) : n.ids = n.id :: n.children.flatMap ids := by
  have hall (ns : List (Node σ)) : (preorders ns).map Node.id = ns.flatMap ids := by
    induction ns with
    | nil => rfl
    | cons c rest ih => rw [preorders, List.map_append, ih, List.flatMap_cons, ids]
  rw [ids, preorder_eq, List.map_cons, hall]

/-- A leaf has the one identifier. -/
@[simp] theorem ids_leaf (tag : Tag) (life : Life) (state : σ) :
    (leaf tag life state).ids = [tag.id] := ids_eq _

/-- The identifiers of a composite are its own and those of its children. -/
@[simp] theorem ids_composite (tag : Tag) (life : Life) (kind : CompositeKind) (resume : Nat)
    (children : List (Node σ)) :
    (composite tag life kind resume children).ids = tag.id :: children.flatMap ids := ids_eq _

/-- The identifiers of a decorator are its own and those of its child. -/
@[simp] theorem ids_decorator (tag : Tag) (life : Life) (kind : DecoratorKind) (memory : Memory)
    (child : Option (Node σ)) :
    (decorator tag life kind memory child).ids = tag.id :: child.toList.flatMap ids := ids_eq _

/-- The identifiers that leaves carry. -/
def siteIds (n : Node (Site × σ)) : List NodeId := n.states.map fun s ↦ s.1.id

/-- The leaves of a subtree stand in the order of the registry. -/
theorem siteIds_sited_sublist (scopes : List NodeId) (n : Node σ) :
    (n.sited scopes).siteIds.Sublist n.ids := by
  induction n using child_induction generalizing scopes with
  | step n ih =>
    rw [ids_eq]
    cases n with
    | leaf => exact List.Sublist.refl _
    | composite tag life kind resume children =>
      rw [sited_composite, siteIds, states_composite, List.flatMap_map, List.map_flatMap]
      exact (List.Sublist.flatMap_right children fun c hc ↦ ih c hc scopes).cons _
    | decorator tag life kind memory child =>
      cases child with
      | none => exact List.nil_sublist _
      | some child =>
        have hc := ih child (by simp [children]) (kind.scopesBelow tag.id scopes)
        rw [sited_decorator, siteIds, states_decorator]
        simpa [children, siteIds] using hc.cons (decorator tag life kind memory (some child)).id

end Node

end BehaviorTree
