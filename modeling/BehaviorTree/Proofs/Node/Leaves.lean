import BehaviorTree.Proofs.Node.Preserved

/-!
# The leaves of a subtree

The states of the leaves of a subtree, in pre-order. What hooks keep of the leaves, runs and aborts
keep of the list.
-/

namespace BehaviorTree

variable {ο σ τ κ ω : Type}

namespace Node

/-- The states of the leaves among some nodes. -/
def leafStates (ns : List (Node σ)) : List σ := ns.filterMap leaf?

/-- The leaf states of two lists of nodes follow each other. -/
@[simp] theorem leafStates_append (as bs : List (Node σ)) :
    leafStates (as ++ bs) = leafStates as ++ leafStates bs :=
  List.filterMap_append

/-- The states of the leaves of a subtree. -/
def states (n : Node σ) : List σ := leafStates n.preorder

/-- The leaf states of the nodes below a list are those of its members, in order. -/
theorem leafStates_preorders (ns : List (Node σ)) :
    leafStates (preorders ns) = ns.flatMap states := by
  induction ns with
  | nil => rfl
  | cons c rest ih =>
    rw [preorders, leafStates_append, ih]
    rfl

/-- The leaf states of a subtree are that of the root, if it is a leaf, and those of the children.
-/
theorem states_eq (n : Node σ) : n.states = n.leaf?.toList ++ n.children.flatMap states := by
  rw [states, preorder_eq, ← leafStates_preorders]
  cases n <;> rfl

/-- A leaf has the one state. -/
@[simp] theorem states_leaf (tag : Tag) (life : Life) (state : σ) :
    (leaf tag life state).states = [state] := rfl

/-- The leaf states of a composite are those of its children. -/
@[simp] theorem states_composite (tag : Tag) (life : Life) (kind : CompositeKind) (resume : Nat)
    (children : List (Node σ)) :
    (composite tag life kind resume children).states = children.flatMap states := states_eq _

/-- The leaf states of a decorator are those of its child. -/
@[simp] theorem states_decorator (tag : Tag) (life : Life) (kind : DecoratorKind) (memory : Memory)
    (child : Option (Node σ)) :
    (decorator tag life kind memory child).states = child.toList.flatMap states := states_eq _

/-- Another life leaves the leaf states. -/
@[simp] theorem states_withLife (n : Node σ) (life : Life) :
    (n.withLife life).states = n.states := by
  rw [states_eq, states_eq n, children_withLife]
  cases n <;> rfl

/-- The leaf states of a recast subtree are recast one by one. -/
theorem states_recast (f : Recasting σ τ) (n : Node σ) :
    (n.recast f).states = n.states.map f.state := by
  rw [states, states, preorder_recast, leafStates, leafStates, List.filterMap_map,
    List.map_filterMap]
  congr 1
  funext m
  cases m with
  | leaf => rfl
  | composite => simp [leaf?]
  | decorator => simp [leaf?]

/-- Mapping leaf states maps each of them. -/
theorem states_map (f : σ → τ) (n : Node σ) : (n.map f).states = n.states.map f :=
  states_recast _ n

/-- A map that changes the state of no leaf changes nothing. -/
theorem map_eq_self {f : σ → σ} {n : Node σ} (h : ∀ s ∈ n.states, f s = s) : n.map f = n := by
  induction n using child_induction with
  | step n ih =>
    cases n with
    | leaf tag life s => simp only [map, recast_leaf, h s (by simp)]
    | composite tag life kind resume children =>
      simp only [map, recast_composite, composite.injEq, true_and]
      refine (List.map_congr_left fun c hc ↦ ih c hc fun s hs ↦ h s ?_).trans (List.map_id _)
      simpa using ⟨c, hc, hs⟩
    | decorator tag life kind memory child =>
      cases child with
      | none => rfl
      | some child =>
        have hc := ih child (by simp [children]) fun s hs ↦ h s (by simpa using hs)
        simpa [map] using hc

/-- A subtree with the frame of a mapped one is mapped itself. -/
theorem exists_map_of_frame {f : σ → τ} {g : τ → σ} (hg : ∀ s, g (f s) = s) {n : Node σ}
    {m : Node τ} (h : n.frame f = m.frame fun s ↦ s) :
    ∃ k : Node σ, m = k.map f ∧ k.frame (fun s ↦ s) = n.frame fun s ↦ s := by
  refine ⟨m.map g, ?_, ?_⟩
  · have hstates := congrArg states h
    rw [frame, frame, states_recast, states_recast, List.map_id'] at hstates
    rw [map_map]
    refine (map_eq_self fun s hs ↦ ?_).symm
    rw [← hstates] at hs
    obtain ⟨x, -, rfl⟩ := List.mem_map.mp hs
    rw [hg]
  · have hframe := congrArg (frame g) h
    rw [frame_frame, frame_frame] at hframe
    rw [frame_map, ← hframe]
    simp only [hg]

/-- Other leaf states are in the same scopes. -/
theorem stores_map (f : σ → τ) (n : Node σ) (i : ScopeId) : (n.map f).stores i = n.stores i := by
  rw [stores, stores, map, preorder_recast, List.map_map]
  refine congrArg List.sum (List.map_congr_left fun m _ ↦ ?_)
  cases m with
  | leaf => rfl
  | composite => simp [ownStores]
  | decorator => simp [ownStores]

/-- What hooks keep of the leaves, runs and aborts keep in order. -/
theorem Evolves.states_eq {B : Behavior ο σ ω} {part : σ → κ} {n n' : Node σ} {env env' : Env ω}
    (hB : B.Keeps part) (h : n.Evolves B env n' env') :
    n'.states.map part = n.states.map part := by
  have hframe := congrArg Node.states (h.frame hB)
  rw [Node.frame, Node.frame, states_recast, states_recast] at hframe
  exact hframe

end Node

end BehaviorTree
