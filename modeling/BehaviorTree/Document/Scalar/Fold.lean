import BehaviorTree.Document.Cursor

/-!
# Blanks and breaks inside a scalar

Between two pieces of a scalar that is not laid out in lines of its own there may be blanks on one
line, which are kept, or breaks, which are folded: a single line feed becomes a blank, and of
several the first is dropped. Blanks around breaks count for nothing.
-/

namespace BehaviorTree

namespace Document

/-- What separates two pieces of a scalar. -/
inductive Gap where
  /-- Blanks on one line. -/
  | blanks (text : List Char)
  /-- Breaks, and blanks around them. -/
  | breaks (text : List Char)

namespace Gap

/-- What a gap adds to the text of a scalar. -/
def text : Gap → List Char
  | blanks text => text
  | breaks ['\n'] => [' ']
  | breaks ('\n' :: more) => more
  | breaks text => text

/-- Whether the gap ends a line. -/
def isBroken : Gap → Bool
  | blanks _ => false
  | breaks _ => true

end Gap

namespace Cursor

/-- Passes over breaks and the blanks behind each of them. No tab may come ahead of column
`margin`. `found` holds the breaks so far, the last first. -/
def breaks? (margin : Nat) : Nat → List Char → Cursor → Option (List Char × Cursor)
  | 0, _, _ => none
  | fuel + 1, found, c =>
    match c.rest with
    | [] => some (found.reverse, c)
    | d :: _ =>
      if isBreak d then
        let next := c.nextLine
        let blanks := next.run isBlank
        if (blanks.take margin).contains '\t' then none
        else breaks? margin fuel (breakText d :: found) (next.skip blanks.length)
      else some (found.reverse, c)

/-- Passes over blanks and breaks. -/
def gap? (margin fuel : Nat) (c : Cursor) : Option (Gap × Cursor) :=
  let blanks := c.run isBlank
  let next := c.skip blanks.length
  if next.atBreak then (next.breaks? margin fuel []).map fun r => (.breaks r.1, r.2)
  else some (.blanks blanks, next)

end Cursor

end Document

end BehaviorTree
