import BehaviorTree.Blackboard.Basic
import BehaviorTree.Node.Identifier
import BehaviorTree.Status

/-!
# Nodes

A node is a leaf, a composite over a list of children or a decorator over at most one child. It
carries what its author gave it, the lifecycle state, and what its kind has to remember between
ticks: a leaf its own state, a composite the index to resume at, a decorator its memory.
-/

namespace BehaviorTree

/-- What ancestors may ask of a node while they resume. -/
structure Flags where
  /-- A resuming sequencer checks the node again and fails when it no longer holds. -/
  reEvaluate : Bool
  /-- A resuming selector lets the node take over when it holds. -/
  hijack : Bool
  deriving DecidableEq, Repr

/-- No flag set. -/
def Flags.none : Flags := ⟨false, false⟩

/-- What the author gave to a node; copies carry it unchanged. -/
structure Tag where
  id : NodeId
  name : String
  position : Vec2
  flags : Flags
  deriving DecidableEq

/-- A tag with nothing but an identifier and a name. -/
def Tag.plain (id : NodeId) (name : String) : Tag := ⟨id, name, .zero, .none⟩

/-- The lifecycle of a node: the state of its last run, and whether an activation is open. -/
structure Life where
  state : NodeState
  started : Bool
  deriving DecidableEq, Repr

/-- The life of a node that was never run. -/
def Life.fresh : Life := ⟨.notStarted, false⟩

/-- When a parallel node completes. -/
inductive ParallelMode where
  | never
  | untilAnyComplete
  | untilAnyFailure
  | untilAnySuccess
  deriving DecidableEq, Repr

/-- How a composite combines its children. -/
inductive CompositeKind where
  /-- All in order, up to the first that does not succeed. -/
  | sequencer
  /-- One after the other, up to the first that does not fail. -/
  | selector
  /-- All at once. -/
  | parallel (mode : ParallelMode)
  deriving DecidableEq, Repr

/-- What a decorator does to its child. -/
inductive DecoratorKind where
  /-- Exchanges success and failure. -/
  | invert
  /-- Turns failure into success. -/
  | succeeder
  /-- Restarts the child whenever it completes, at most `limit` times if there is a limit. -/
  | loop (limit : Option UInt32)
  /-- Runs the child in a blackboard scope of its own. -/
  | scoped
  deriving DecidableEq, Repr

/-- The default name of a composite. -/
def CompositeKind.label : CompositeKind → String
  | .sequencer => "Sequencer"
  | .selector => "Selector"
  | .parallel _ => "Parallel"

/-- The default name of a decorator. -/
def DecoratorKind.label : DecoratorKind → String
  | .invert => "Invert"
  | .succeeder => "Succeeder"
  | .loop _ => "Repeat"
  | .scoped => "BlackboardScope"

/-- What a decorator remembers between ticks. -/
structure Memory where
  /-- Completed activations of the child in the current activation. -/
  count : UInt32
  /-- The stored scope, detached, once there is one. -/
  scope : Option Scope
  /-- The scope around the stored one when it was last used. -/
  enclosing : Option ScopeId

/-- The memory of a decorator that was never run. -/
def Memory.fresh : Memory := ⟨0, none, none⟩

/-- A node over leaves with states of type `σ`. -/
inductive Node (σ : Type) where
  | leaf (tag : Tag) (life : Life) (state : σ)
  | composite (tag : Tag) (life : Life) (kind : CompositeKind) (resume : Nat)
      (children : List (Node σ))
  | decorator (tag : Tag) (life : Life) (kind : DecoratorKind) (memory : Memory)
      (child : Option (Node σ))

namespace Node

variable {σ : Type}

/-- A leaf that was never run. -/
def newLeaf (tag : Tag) (state : σ) : Node σ := leaf tag .fresh state

/-- A composite that was never run. -/
def newComposite (tag : Tag) (kind : CompositeKind) (children : List (Node σ)) : Node σ :=
  composite tag .fresh kind 0 children

/-- A decorator that was never run. -/
def newDecorator (tag : Tag) (kind : DecoratorKind) (child : Option (Node σ)) : Node σ :=
  decorator tag .fresh kind .fresh child

/-- What the author gave to the node. -/
def tag : Node σ → Tag
  | leaf tag .. => tag
  | composite tag .. => tag
  | decorator tag .. => tag

/-- The lifecycle of the node. -/
def life : Node σ → Life
  | leaf _ life _ => life
  | composite _ life .. => life
  | decorator _ life .. => life

/-- The node with another tag. -/
def withTag (tag : Tag) : Node σ → Node σ
  | leaf _ life state => leaf tag life state
  | composite _ life kind resume children => composite tag life kind resume children
  | decorator _ life kind memory child => decorator tag life kind memory child

/-- The node with another lifecycle. -/
def withLife (life : Life) : Node σ → Node σ
  | leaf tag _ state => leaf tag life state
  | composite tag _ kind resume children => composite tag life kind resume children
  | decorator tag _ kind memory child => decorator tag life kind memory child

/-- The identifier of the node. -/
def id (n : Node σ) : NodeId := n.tag.id

/-- The name of the node. -/
def name (n : Node σ) : String := n.tag.name

/-- The flags of the node. -/
def flags (n : Node σ) : Flags := n.tag.flags

/-- The state of the last run. -/
def state (n : Node σ) : NodeState := n.life.state

/-- Whether an activation is open. -/
def started (n : Node σ) : Bool := n.life.started

/-- The children in tick order; a decorator has at most one. -/
def children : Node σ → List (Node σ)
  | leaf .. => []
  | composite _ _ _ _ children => children
  | decorator _ _ _ _ child => child.toList

/-- The state of a leaf. -/
def leaf? : Node σ → Option σ
  | leaf _ _ state => some state
  | _ => none

mutual

/-- The number of nodes in the subtree. -/
def size : Node σ → Nat
  | leaf .. => 1
  | composite _ _ _ _ children => 1 + sizes children
  | decorator _ _ _ _ none => 1
  | decorator _ _ _ _ (some child) => 1 + size child

/-- The number of nodes in several subtrees. -/
def sizes : List (Node σ) → Nat
  | [] => 0
  | c :: rest => size c + sizes rest

end

/-- Another life leaves the tag. -/
@[simp] theorem tag_withLife (n : Node σ) (life : Life) : (n.withLife life).tag = n.tag := by
  cases n <;> rfl

/-- The life is the one that was put in. -/
@[simp] theorem life_withLife (n : Node σ) (life : Life) : (n.withLife life).life = life := by
  cases n <;> rfl

/-- Another life leaves the children. -/
@[simp] theorem children_withLife (n : Node σ) (life : Life) :
    (n.withLife life).children = n.children := by
  cases n <;> rfl

/-- Another life leaves the size. -/
@[simp] theorem size_withLife (n : Node σ) (life : Life) : (n.withLife life).size = n.size := by
  cases n with
  | leaf => rfl
  | composite => simp [withLife, size]
  | decorator _ _ _ _ child => cases child <;> simp [withLife, size]

/-- A subtree has at least its root. -/
theorem size_pos (n : Node σ) : 0 < n.size := by
  cases n with
  | leaf => simp only [size]; omega
  | composite => simp only [size]; omega
  | decorator _ _ _ _ child => cases child <;> simp only [size] <;> omega

/-- The sizes of two lists of nodes add up. -/
theorem sizes_append (as bs : List (Node σ)) : sizes (as ++ bs) = sizes as + sizes bs := by
  induction as with
  | nil => simp [sizes]
  | cons a as ih => simp [sizes, ih]; omega

/-- A node of a list is no larger than all of them. -/
theorem size_le_sizes {c : Node σ} {children : List (Node σ)} (h : c ∈ children) :
    c.size ≤ sizes children := by
  induction children with
  | nil => cases h
  | cons a rest ih =>
    simp only [sizes]
    rcases List.mem_cons.mp h with rfl | h
    · omega
    · have := ih h; omega

/-- A node is one more than its children. -/
theorem size_eq (n : Node σ) : n.size = 1 + sizes n.children := by
  cases n with
  | leaf => simp [size, children, sizes]
  | composite => simp [size, children]
  | decorator _ _ _ _ child => cases child <;> simp [size, children, sizes]

/-- A child is smaller than its parent. -/
theorem size_lt_of_mem_children {c n : Node σ} (h : c ∈ n.children) : c.size < n.size := by
  rw [size_eq n]
  have := size_le_sizes h
  omega

end Node

end BehaviorTree
