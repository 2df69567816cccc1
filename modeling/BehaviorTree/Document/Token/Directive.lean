import BehaviorTree.Document.Token.Property

/-!
# Lines ahead of a document

A line that begins with a percent sign names the version of the notation, or says what a handle
stands for in tags.
-/

namespace BehaviorTree

namespace Document

namespace Cursor

/-- Reads a number of one to nine digits. -/
def number? (c : Cursor) : Option (Nat × Cursor) :=
  let digits := c.run Char.isDigit
  if digits.length ≤ 9 then
    (Digits.toNat? 10 digits).map fun n => (n, c.skip digits.length)
  else none

/-- Reads a version: two numbers with a point between them. -/
def version? (c : Cursor) : Option (Token × Cursor) := do
  let (major, c) ← c.number?
  if c.rest.head? ≠ some '.' then none
  let (minor, c) ← (c.skip 1).number?
  return (.version major minor, c)

/-- Reads a handle and what it stands for. -/
def handle? (c : Cursor) : Option (Token × Cursor) := do
  if c.rest.head? ≠ some '!' then none
  let c := c.skip 1
  let name := c.run isNameChar
  let c := c.skip name.length
  let closed := c.rest.head? == some '!'
  if !closed && !name.isEmpty then none
  let c := if closed then c.skip 1 else c
  if !c.rest.head?.any isBlank then none
  let c := c.skipWhile isBlank
  let (expansion, n) ← tagText? true 0 [] 0 c.rest
  if n = 0 ∨ !endsWord (c.skip n).rest then none
  let name := "!" ++ String.ofList name ++ (if closed then "!" else "")
  return (.handle name expansion, c.skip n)

/-- Reads a line behind the percent sign that begins it. -/
def directive? (c : Cursor) : Option (Token × Cursor) := do
  let name := c.run isNameChar
  let c := c.skip name.length
  if !endsWord c.rest then none
  let c := c.skipWhile isBlank
  let (token, c) ← match String.ofList name with
    | "YAML" => c.version?
    | "TAG" => c.handle?
    | _ => none
  let c ← c.endLine?
  return (token, c)

end Cursor

end Document

end BehaviorTree
