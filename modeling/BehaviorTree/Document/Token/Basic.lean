/-!
# Tokens

The pieces that a document is made of. Collections that are laid out by indentation have tokens
for their start and end like those in brackets.
-/

namespace BehaviorTree

namespace Document

/-- How a scalar is written. -/
inductive Style where
  /-- Without quotes. -/
  | plain
  /-- In single or double quotes. -/
  | quoted
  /-- As lines below a bar, which keep their breaks. -/
  | literal
  /-- As lines below an angle bracket, which are joined. -/
  | folded
  deriving DecidableEq, Repr

/-- A piece of a document. -/
inductive Token where
  /-- A line that names the version of the notation. -/
  | version (major minor : Nat)
  /-- A line that says what a handle stands for in tags. -/
  | handle (name expansion : String)
  /-- A line of three dashes. -/
  | documentStart
  /-- A line of three dots. -/
  | documentEnd
  /-- The start of a list of dashed lines. -/
  | listStart
  /-- The start of a mapping of lines. -/
  | mappingStart
  /-- The end of a list or mapping of lines. -/
  | blockEnd
  /-- The bracket that begins a list. -/
  | bracketStart
  /-- The bracket that ends a list. -/
  | bracketEnd
  /-- The brace that begins a mapping. -/
  | braceStart
  /-- The brace that ends a mapping. -/
  | braceEnd
  /-- A dash ahead of an item. -/
  | dash
  | comma
  /-- What comes next is a key. -/
  | key
  /-- What comes next is the value of a key. -/
  | value
  /-- The name of a node that was given before. -/
  | reference (name : String)
  /-- A name for the node that follows. -/
  | anchor (name : String)
  /-- A tag for the node that follows: a handle, which may be empty, and the rest. -/
  | tag (handle rest : String)
  | scalar (style : Style) (text : String)
  deriving DecidableEq, Repr

namespace Token

/-- Whether the next of some tokens is one of `kinds`. -/
def comes (kinds : List Token) (ts : List Token) : Bool := ts.head?.any kinds.contains

/-- Whether a token belongs to the lines ahead of a document. -/
def isDirective : Token → Bool
  | version .. | handle .. => true
  | _ => false

end Token

end Document

end BehaviorTree
