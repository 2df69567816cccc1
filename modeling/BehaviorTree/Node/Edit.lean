import BehaviorTree.Node.Basic

/-!
# Editing and copying nodes

Children are added and removed one at a time; the shape of a node limits what it accepts. A shell
is a childless copy of a node with a fresh life. A recycled node is renewed from another one into
a shell of it; the one thing it may keep is a stored scope, emptied.
-/

namespace BehaviorTree

variable {σ : Type}

/-- Why a tree cannot be built or edited. -/
inductive TreeError where
  /-- An identifier occurs twice in a tree. -/
  | duplicateId (id : NodeId)
  /-- A leaf cannot have children. -/
  | leafChild (id : NodeId)
  /-- A decorator cannot have a second child. -/
  | decoratorOccupied (id : NodeId)
  deriving DecidableEq

/-- The error in words. -/
def TreeError.message : TreeError → String
  | .duplicateId id => "node id " ++ id.text ++ " appears more than once in the tree"
  | .leafChild id => "leaf node " ++ id.text ++ " cannot own children"
  | .decoratorOccupied id => "decorator node " ++ id.text ++ " already has a child"

/-- Forgets an activation: the stored scope stays, but emptied and bound to no enclosing one. -/
def Memory.scrubbed (m : Memory) : Memory := ⟨0, m.scope.map Scope.cleared, none⟩

namespace Node

/-- Appends a child to a composite, or fills the empty place of a decorator. -/
def addChild (n child : Node σ) : Except TreeError (Node σ) :=
  match n with
  | leaf tag .. => .error (.leafChild tag.id)
  | composite tag life kind resume children =>
    .ok (composite tag life kind resume (children ++ [child]))
  | decorator tag life kind memory none => .ok (decorator tag life kind memory (some child))
  | decorator tag _ _ _ (some _) => .error (.decoratorOccupied tag.id)

/-- Takes out the child at an index: the child and what remains. The index to resume at stays
within the remaining children. -/
def removeChild (n : Node σ) (index : Nat) : Option (Node σ × Node σ) :=
  match n with
  | leaf .. => none
  | composite tag life kind resume children =>
    children[index]?.map fun child =>
      (child, composite tag life kind (min resume (children.length - 1)) (children.eraseIdx index))
  | decorator tag life kind memory child =>
    if index = 0 then child.map (·, decorator tag life kind memory none) else none

/-- The node with given children in place of its own; a decorator takes the first of them. -/
def withChildren (n : Node σ) (children : List (Node σ)) : Node σ :=
  match n with
  | leaf tag life state => leaf tag life state
  | composite tag life kind resume _ => composite tag life kind resume children
  | decorator tag life kind memory _ => decorator tag life kind memory children.head?

/-- A childless copy with a fresh life. -/
def shell : Node σ → Node σ
  | leaf tag _ state => leaf tag .fresh state
  | composite tag _ kind _ _ => composite tag .fresh kind 0 []
  | decorator tag _ kind _ _ => decorator tag .fresh kind .fresh none

/-- The node without children and without the traces of an activation. -/
def scrubbed : Node σ → Node σ
  | leaf tag _ state => leaf tag .fresh state
  | composite tag _ kind _ _ => composite tag .fresh kind 0 []
  | decorator tag _ kind memory _ => decorator tag .fresh kind memory.scrubbed none

/-- Makes a recycled node a shell of `model`. -/
def renewed (recycled model : Node σ) : Node σ :=
  match recycled, model with
  | decorator _ _ _ memory _, decorator tag _ kind _ _ =>
    decorator tag .fresh kind memory.scrubbed none
  | _, _ => model.shell

/-- A shell has the tag of what it was made from. -/
@[simp] theorem tag_shell (n : Node σ) : n.shell.tag = n.tag := by cases n <;> rfl

/-- Scrubbing leaves the tag. -/
@[simp] theorem tag_scrubbed (n : Node σ) : n.scrubbed.tag = n.tag := by cases n <;> rfl

/-- Other children leave the tag. -/
@[simp] theorem tag_withChildren (n : Node σ) (children : List (Node σ)) :
    (n.withChildren children).tag = n.tag := by
  cases n <;> rfl

end Node

end BehaviorTree
