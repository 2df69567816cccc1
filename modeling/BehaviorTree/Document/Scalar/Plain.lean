import BehaviorTree.Document.Scalar.Fold

/-!
# Scalars without quotes

A plain scalar goes on until a colon that ends a word, a comment, a line that separates documents,
a line that is not indented deeply enough, or, in brackets, a character with a meaning of its own.
-/

namespace BehaviorTree

namespace Document

namespace Plain

/-- The piece of a plain scalar that comes without a blank or break in it; `found` holds the
characters so far, the last first. In brackets no colon may adjoin another indicator. -/
def piece? (flow : Bool) (found : List Char) : List Char → Option (List Char)
  | [] => some found.reverse
  | c :: rest =>
    if !isSolid c then some found.reverse
    else if flow && c == ':' && startsWith ('?' :: flowIndicators) rest then none
    else if c == ':' && endsWord rest then some found.reverse
    else if flow && flowIndicators.contains c then some found.reverse
    else piece? flow (c :: found) rest

/-- Reads a plain scalar, of whose text `found` comes before, the last first, and `gap` next. It
also says whether the scalar ended behind a break. -/
def read? (flow : Bool) (margin : Nat) :
    Nat → List Char → Gap → Cursor → Option (List Char × Bool × Cursor)
  | 0, _, _, _ => none
  | fuel + 1, found, gap, c =>
    if c.atBoundary || c.rest.head? == some '#' then some (found.reverse, gap.isBroken, c)
    else do
      let piece ← piece? flow [] c.rest
      if piece.isEmpty then return (found.reverse, gap.isBroken, c)
      let found := piece.reverseAux (gap.text.reverseAux found)
      let c := c.skip piece.length
      if c.rest.isEmpty || !endsWord c.rest then return (found.reverse, false, c)
      let (gap, c) ← c.gap? margin fuel
      if !flow && c.column < margin then return (found.reverse, gap.isBroken, c)
      read? flow margin fuel found gap c

end Plain

/-- Reads a plain scalar: its text, whether it ended behind a break, and the place behind it. -/
def Cursor.plain? (flow : Bool) (margin fuel : Nat) (c : Cursor) :
    Option (String × Bool × Cursor) :=
  (Plain.read? flow margin fuel [] (.blanks []) c).map fun r => (String.ofList r.1, r.2)

end Document

end BehaviorTree
