import BehaviorTree.Node.Basic

/-!
# Walking nodes

A walk holds the nodes it still has to visit and takes one at a time, so that a search can end
early. It visits every node of a subtree once, each before its children and the children in order:
`toList_start` states this against the recursive `preorder`.
-/

namespace BehaviorTree

variable {σ : Type}

namespace Node

mutual

/-- The nodes of a subtree, each before its children. -/
def preorder : Node σ → List (Node σ)
  | leaf tag life state => [leaf tag life state]
  | composite tag life kind resume children =>
    composite tag life kind resume children :: preorders children
  | decorator tag life kind memory none => [decorator tag life kind memory none]
  | decorator tag life kind memory (some child) =>
    decorator tag life kind memory (some child) :: preorder child
termination_by structural n => n

/-- The nodes of several subtrees, one after the other. -/
def preorders : List (Node σ) → List (Node σ)
  | [] => []
  | c :: rest => preorder c ++ preorders rest
termination_by structural ns => ns

end

/-- The pre-order of a subtree is its root and then those of the children. -/
theorem preorder_eq (n : Node σ) : n.preorder = n :: preorders n.children := by
  cases n with
  | leaf => simp [preorder, children, preorders]
  | composite => simp [preorder, children]
  | decorator _ _ _ _ child => cases child <;> simp [preorder, children, preorders]

/-- The pre-orders of two lists of nodes follow each other. -/
theorem preorders_append (as bs : List (Node σ)) :
    preorders (as ++ bs) = preorders as ++ preorders bs := by
  induction as with
  | nil => simp [preorders]
  | cons a as ih => simp [preorders, ih]

end Node

/-- A walk in progress: the nodes still to visit, next one first. -/
structure Walk (σ : Type) where
  pending : List (Node σ)

namespace Walk

/-- A walk over a subtree. -/
def start (root : Node σ) : Walk σ := ⟨[root]⟩

/-- The number of nodes still to visit. -/
def remaining (walk : Walk σ) : Nat := Node.sizes walk.pending

/-- The walk after `n` was visited: its children come before what else was pending. -/
def past (n : Node σ) (rest : List (Node σ)) : Walk σ := ⟨n.children ++ rest⟩

/-- A visit leaves fewer nodes to visit. -/
theorem remaining_past (n : Node σ) (rest : List (Node σ)) :
    (past n rest).remaining < remaining ⟨n :: rest⟩ := by
  simp only [remaining, past, Node.sizes, Node.sizes_append, Node.size_eq n]
  omega

/-- The first node still to visit that meets a condition. -/
def find? (p : Node σ → Bool) : Walk σ → Option (Node σ)
  | ⟨[]⟩ => none
  | ⟨n :: rest⟩ => if p n then some n else find? p (past n rest)
termination_by walk => walk.remaining
decreasing_by exact remaining_past n rest

/-- The nodes still to visit, in order. -/
def toList : Walk σ → List (Node σ)
  | ⟨[]⟩ => []
  | ⟨n :: rest⟩ => n :: toList (past n rest)
termination_by walk => walk.remaining
decreasing_by exact remaining_past n rest

/-- A walk visits the nodes that are pending, and what is below them, in pre-order. -/
theorem toList_eq (walk : Walk σ) : walk.toList = Node.preorders walk.pending := by
  fun_induction toList walk with
  | case1 => simp [Node.preorders]
  | case2 n rest ih =>
    rw [ih]
    simp [past, Node.preorders, Node.preorder_eq n, Node.preorders_append]

/-- A walk over a subtree visits it in pre-order. -/
theorem toList_start (root : Node σ) : (start root).toList = root.preorder := by
  simp [toList_eq, start, Node.preorders]

/-- A search takes the first node of the walk that meets the condition. -/
theorem find?_eq (p : Node σ → Bool) (walk : Walk σ) : walk.find? p = walk.toList.find? p := by
  fun_induction find? p walk with
  | case1 => simp [toList]
  | case2 n rest h => simp [toList, h]
  | case3 n rest h ih => simp [toList, h, ih]

end Walk

end BehaviorTree
