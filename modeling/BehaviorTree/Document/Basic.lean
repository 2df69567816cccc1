import BehaviorTree.Document.Token.Basic

/-!
# Documents

A document is a tree of scalars, lists and mappings. A node may be given a name and referred to by
it later. Names get numbers in the order in which the nodes begin, by how many different names there
were before; a name that is given again can share its number with another one, and then the node
that begins last is meant.
-/

namespace BehaviorTree

namespace Document

/-- A node of a document. -/
inductive Content where
  | scalar (tag : Option String) (style : Style) (text : String)
  | list (items : List Content)
  | mapping (entries : List (Content × Content))
  /-- The node that has a number. -/
  | reference (number : Nat)
  deriving Inhabited

/-- What stands where nothing is written. -/
def Content.empty : Content := .scalar none .plain ""

/-- A name that is given to a node. -/
structure Anchor where
  /-- How many different names there were before. -/
  number : Nat
  /-- How many nodes with a name began before. -/
  order : Nat

end Document

/-- A document. -/
structure Document where
  root : Document.Content
  /-- The nodes that have a name. -/
  anchored : List (Document.Anchor × Document.Content)

namespace Document

/-- Of the nodes with a number, the one that begins last. -/
def find? (d : Document) (number : Nat) : Option Content :=
  let found := d.anchored.filter (·.1.number == number)
  (found.foldl (fun last n =>
    match last with
    | some m => if m.1.order < n.1.order then some n else last
    | none => some n) none).map Prod.snd

/-- The node itself, or the one that it refers to. -/
def resolve (d : Document) : Content → Content
  | .reference number => (d.find? number).getD (.reference number)
  | c => c

end Document

end BehaviorTree
