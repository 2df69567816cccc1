import BehaviorTree.Decimal.Text
import BehaviorTree.Leaf.Owner
import BehaviorTree.Pool
import BehaviorTree.Text.Printable
import BehaviorTree.Tree.Basic

/-!
# Descriptions

One-line descriptions of values, nodes, trees, owners and pools for people who look into them. A
record is its name with its fields in braces.
-/

namespace BehaviorTree

/-- A record with its fields in braces. -/
def describeRecord (name : String) (fields : List (String × String)) : String :=
  name ++ " \x7b " ++ ", ".intercalate (fields.map fun f => f.1 ++ ": " ++ f.2) ++ " \x7d"

/-- An optional thing. -/
def describeOption {α : Type} (describe : α → String) : Option α → String
  | none => "None"
  | some a => "Some(" ++ describe a ++ ")"

/-- A character inside double quotes: quotes, backslashes and what cannot be shown are escaped. -/
def describeChar (c : Char) : String :=
  match c with
  | '\x00' => "\\0"
  | '\t' => "\\t"
  | '\r' => "\\r"
  | '\n' => "\\n"
  | '"' => "\\\""
  | '\\' => "\\\\"
  | c =>
    if Text.isPrintable c then String.singleton c
    else "\\u\x7b" ++ String.ofList (Nat.toDigits 16 c.toNat) ++ "\x7d"

/-- A text in double quotes. -/
def describeText (s : String) : String :=
  "\"" ++ String.join (s.toList.map describeChar) ++ "\""

/-- A node identifier. -/
def NodeId.describe (id : NodeId) : String := "NodeId(" ++ id.text ++ ")"

/-- A vector with its coordinates. -/
def Vec3.describe (v : Vec3) : String :=
  "Vec3(" ++ ", ".intercalate ([v.x, v.y, v.z].map FloatStyle.description.text) ++ ")"

/-- A value with its kind; objects are not looked into. -/
def Value.describe : Value → String
  | .int n => "Int(" ++ toString n.toInt ++ ")"
  | .float x => "Float(" ++ FloatStyle.description.text x ++ ")"
  | .bool b => "Bool(" ++ toString b ++ ")"
  | .vector v => "Vector(" ++ v.describe ++ ")"
  | .object .. => "Object(..)"

namespace Node

variable {σ : Type}

/-- The name of a node's kind. -/
def kindLabel : Node σ → String
  | leaf .. => "Leaf"
  | composite _ _ kind _ _ => kind.label
  | decorator _ _ kind _ _ => kind.label

/-- The fields of a node, given the descriptions of its children. -/
def describeWith (n : Node σ) (children : List String) : String :=
  describeRecord "Node" [
    ("id", n.id.describe),
    ("name", describeText n.name),
    ("kind", describeText n.kindLabel),
    ("state", n.state.name),
    ("started", toString n.started),
    ("children", "[" ++ ", ".intercalate children ++ "]")]

mutual

/-- A node with all nodes below it. -/
def describe : Node σ → String
  | leaf tag life state => describeWith (leaf tag life state) []
  | composite tag life kind resume children =>
    describeWith (composite tag life kind resume children) (describeAll children)
  | decorator tag life kind memory none =>
    describeWith (decorator tag life kind memory none : Node σ) []
  | decorator tag life kind memory (some child) =>
    describeWith (decorator tag life kind memory (some child)) [describe child]
termination_by structural n => n

/-- Several nodes. -/
def describeAll : List (Node σ) → List String
  | [] => []
  | c :: rest => describe c :: describeAll rest
termination_by structural ns => ns

end

end Node

/-- A tree by its root and its size. -/
def Tree.describe {ο σ : Type} (t : Tree ο σ) : String :=
  describeRecord "Tree" [
    ("root", t.root.id.describe),
    ("nodes", toString t.size),
    ("is_cloned", toString t.isInstance),
    ("last_status", describeOption Status.name t.lastStatus)]

/-- An owner, which is not looked into. -/
def Owner.describe (_ : Owner) : String := "OwnerContext \x7b .. \x7d"

/-- A pool by its bound, its free nodes and its counters. -/
def Pool.describe {σ : Type} (p : Pool σ) : String :=
  describeRecord "NodePool" [
    ("config", describeRecord "PoolConfig" [("max_free_per_prototype", toString p.maxFree)]),
    ("free", toString p.totalFree),
    ("stats", describeRecord "PoolStats" [
      ("hits", toString p.stats.hits),
      ("misses", toString p.stats.misses),
      ("released", toString p.stats.released),
      ("dropped", toString p.stats.dropped)])]

end BehaviorTree
