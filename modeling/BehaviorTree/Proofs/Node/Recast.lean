import BehaviorTree.Proofs.Node.Unused

/-!
# Recasting nodes

A node is recast part by part: lifecycle, index to resume at, memory and leaf state. The shape of
the subtree, its tags and its kinds stay. Three recastings matter: `map` changes the leaf states
alone, `frame` drops every trace of an activation, and `plain` drops the identities of scopes.
-/

namespace BehaviorTree

variable {σ τ υ : Type}

/-- What a memory tells apart from identities of scopes: the count, and the entries if there are
any. -/
def Memory.plain (m : Memory) : Memory :=
  ⟨m.count, (m.scope.filter fun s ↦ !s.entries.isEmpty).map fun s ↦ ⟨⟨0⟩, s.entries⟩, none⟩

/-- What to make of the parts of each node. -/
structure Recasting (σ τ : Type) where
  life : Life → Life
  resume : Nat → Nat
  memory : Memory → Memory
  state : σ → τ

namespace Node

mutual

/-- The subtree with the parts of each node recast. -/
def recast (f : Recasting σ τ) : Node σ → Node τ
  | leaf tag life state => leaf tag (f.life life) (f.state state)
  | composite tag life kind resume children =>
    composite tag (f.life life) kind (f.resume resume) (recasts f children)
  | decorator tag life kind memory none => decorator tag (f.life life) kind (f.memory memory) none
  | decorator tag life kind memory (some child) =>
    decorator tag (f.life life) kind (f.memory memory) (some (recast f child))
termination_by structural n => n

/-- Several subtrees with the parts of each node recast. -/
def recasts (f : Recasting σ τ) : List (Node σ) → List (Node τ)
  | [] => []
  | c :: rest => recast f c :: recasts f rest
termination_by structural ns => ns

end

variable {f : Recasting σ τ}

private theorem recasts_eq_map (ns : List (Node σ)) : recasts f ns = ns.map (recast f) := by
  induction ns with
  | nil => rfl
  | cons c rest ih => rw [recasts, ih, List.map_cons]

/-- A recast leaf is a leaf. -/
@[simp] theorem recast_leaf (tag : Tag) (life : Life) (state : σ) :
    (leaf tag life state).recast f = leaf tag (f.life life) (f.state state) := rfl

/-- A recast composite is a composite of the recast children. -/
@[simp] theorem recast_composite (tag : Tag) (life : Life) (kind : CompositeKind) (resume : Nat)
    (children : List (Node σ)) :
    (composite tag life kind resume children).recast f =
      composite tag (f.life life) kind (f.resume resume) (children.map (recast f)) := by
  rw [recast, recasts_eq_map]

/-- A recast decorator is a decorator of the recast child. -/
@[simp] theorem recast_decorator (tag : Tag) (life : Life) (kind : DecoratorKind) (memory : Memory)
    (child : Option (Node σ)) :
    (decorator tag life kind memory child).recast f =
      decorator tag (f.life life) kind (f.memory memory) (child.map (recast f)) := by
  cases child <;> rfl

/-- Recasting leaves the tag. -/
@[simp] theorem tag_recast (n : Node σ) : (n.recast f).tag = n.tag := by
  cases n with
  | leaf => rfl
  | composite => simp [tag]
  | decorator => simp [tag]

/-- Recasting recasts the life. -/
@[simp] theorem life_recast (n : Node σ) : (n.recast f).life = f.life n.life := by
  cases n with
  | leaf => rfl
  | composite => simp [life]
  | decorator => simp [life]

/-- Recasting recasts the children. -/
@[simp] theorem children_recast (n : Node σ) :
    (n.recast f).children = n.children.map (recast f) := by
  cases n with
  | leaf => rfl
  | composite => simp [children]
  | decorator _ _ _ _ child => cases child <;> simp [children]

/-- Leaves come from leaves. -/
theorem recast_eq_leaf {n : Node σ} {tag : Tag} {life : Life} {state : τ}
    (h : n.recast f = leaf tag life state) :
    ∃ life' state', n = leaf tag life' state' ∧ f.state state' = state := by
  cases n with
  | leaf tag' life' state' =>
    rw [recast_leaf, leaf.injEq] at h
    obtain ⟨rfl, -, hs⟩ := h
    exact ⟨life', state', rfl, hs⟩
  | composite => simp at h
  | decorator => simp at h

/-- Composites come from composites. -/
theorem recast_eq_composite {n : Node σ} {tag : Tag} {life : Life} {kind : CompositeKind}
    {resume : Nat} {children : List (Node τ)}
    (h : n.recast f = composite tag life kind resume children) :
    ∃ life' resume' children', n = composite tag life' kind resume' children' ∧
      children'.map (recast f) = children := by
  cases n with
  | leaf => simp at h
  | composite tag' life' kind' resume' children' =>
    rw [recast_composite, composite.injEq] at h
    obtain ⟨rfl, -, rfl, -, hc⟩ := h
    exact ⟨life', resume', children', rfl, hc⟩
  | decorator => simp at h

/-- Decorators come from decorators. -/
theorem recast_eq_decorator {n : Node σ} {tag : Tag} {life : Life} {kind : DecoratorKind}
    {memory : Memory} {child : Option (Node τ)}
    (h : n.recast f = decorator tag life kind memory child) :
    ∃ life' memory' child', n = decorator tag life' kind memory' child' ∧
      child'.map (recast f) = child := by
  cases n with
  | leaf => simp at h
  | composite => simp at h
  | decorator tag' life' kind' memory' child' =>
    rw [recast_decorator, decorator.injEq] at h
    obtain ⟨rfl, -, rfl, -, hc⟩ := h
    exact ⟨life', memory', child', rfl, hc⟩

/-- Recasting twice is recasting once. -/
theorem recast_recast (g : Recasting τ υ) (n : Node σ) :
    (n.recast f).recast g =
      n.recast ⟨g.life ∘ f.life, g.resume ∘ f.resume, g.memory ∘ f.memory, g.state ∘ f.state⟩ := by
  induction n using child_induction with
  | step n ih =>
    cases n with
    | leaf => rfl
    | composite =>
      simp only [recast_composite, List.map_map, composite.injEq, true_and, Function.comp_apply]
      exact List.map_congr_left ih
    | decorator _ _ _ _ child =>
      cases child with
      | none => rfl
      | some child => simpa using ih child (by simp [children])

/-- Recasting recasts each node of the pre-order. -/
theorem preorder_recast (n : Node σ) : (n.recast f).preorder = n.preorder.map (recast f) := by
  induction n using child_induction with
  | step n ih =>
    have hp (ns : List (Node σ)) (h : ∀ c ∈ ns, (c.recast f).preorder = c.preorder.map (recast f)) :
        preorders (ns.map (recast f)) = (preorders ns).map (recast f) := by
      induction ns with
      | nil => rfl
      | cons c rest rest_ih =>
        rw [List.map_cons, preorders, preorders, List.map_append, h c (by simp),
          rest_ih fun d hd ↦ h d (by simp [hd])]
    rw [preorder_eq, preorder_eq n, children_recast, List.map_cons, hp _ ih]

/-- The subtree with other leaf states. -/
def map (f : σ → τ) (n : Node σ) : Node τ := n.recast ⟨fun l ↦ l, fun i ↦ i, fun m ↦ m, f⟩

/-- Leaf states can be mapped twice at once. -/
theorem map_map (f : σ → τ) (g : τ → υ) (n : Node σ) :
    (n.map f).map g = n.map fun s ↦ g (f s) := recast_recast _ n

/-- Leaf states mapped to themselves leave the subtree. -/
theorem map_self (n : Node σ) : (n.map fun s ↦ s) = n := by
  induction n using child_induction with
  | step n ih =>
    cases n with
    | leaf => rfl
    | composite =>
      simp only [map, recast_composite, composite.injEq, true_and]
      exact (List.map_congr_left ih).trans (List.map_id _)
    | decorator _ _ _ _ child =>
      cases child with
      | none => rfl
      | some child => simpa [map] using ih child (by simp [children])

/-- Other leaf states leave a subtree unused. -/
theorem allUnused_map {f : σ → τ} {n : Node σ} (h : n.AllUnused) : (n.map f).AllUnused := by
  intro m hm
  rw [map, preorder_recast] at hm
  obtain ⟨c, hc, rfl⟩ := List.mem_map.mp hm
  have hu := h c hc
  cases c with
  | leaf => exact hu
  | composite => rw [recast_composite]; exact hu
  | decorator => rw [recast_decorator]; exact hu

/-- A subtree is unused if it is with other leaf states. -/
theorem allUnused_of_map {f : σ → τ} {n : Node σ} (h : (n.map f).AllUnused) : n.AllUnused := by
  intro m hm
  have hmem : m.map f ∈ (n.map f).preorder := by
    rw [map, preorder_recast]
    exact List.mem_map_of_mem hm
  have hu := h (m.map f) hmem
  cases m with
  | leaf => exact hu
  | composite => rw [map, recast_composite] at hu; exact hu
  | decorator => rw [map, recast_decorator] at hu; exact hu

/-- The subtree as its author made it, with something of each leaf state. -/
def frame (f : σ → τ) (n : Node σ) : Node τ :=
  n.recast ⟨fun _ ↦ .fresh, fun _ ↦ 0, fun _ ↦ .fresh, f⟩

/-- Framing twice is framing once. -/
theorem frame_frame (f : σ → τ) (g : τ → υ) (n : Node σ) :
    (n.frame f).frame g = n.frame fun s ↦ g (f s) := recast_recast _ n

/-- The frame of a subtree with other leaf states is a frame of the subtree. -/
theorem frame_map (f : σ → τ) (g : τ → υ) (n : Node σ) :
    (n.map f).frame g = n.frame fun s ↦ g (f s) := recast_recast _ n

/-- The identifiers of the nodes of a subtree, each before those of its children. -/
def ids (n : Node σ) : List NodeId := n.preorder.map Node.id

/-- Recasting leaves the identifiers as they are. -/
theorem ids_recast (n : Node σ) : (n.recast f).ids = n.ids := by
  rw [ids, preorder_recast, List.map_map, ids]
  exact List.map_congr_left fun m _ ↦ congrArg Tag.id m.tag_recast

/-- The subtree without identities of scopes and without empty scopes. -/
def plain (n : Node σ) : Node σ := n.recast ⟨fun l ↦ l, fun i ↦ i, Memory.plain, fun s ↦ s⟩

end Node

end BehaviorTree
