import BehaviorTree.Document.Character

/-!
# A place in a document

A cursor is what is left of the text, together with how far the place is from the start, on which
line it is, and in which column. The distance is counted in octets of the text's encoding, the
column in characters. A carriage return followed by a line feed is one break.
-/

namespace BehaviorTree

namespace Document

/-- A place in a text. -/
structure Cursor where
  /-- What is left of the text. -/
  rest : List Char
  /-- How many octets came before. -/
  offset : Nat
  /-- How many lines came before. -/
  line : Nat
  /-- How many characters of the line came before. -/
  column : Nat

namespace Cursor

/-- The start of a text. -/
def ofText (text : String) : Cursor := ⟨text.toList, 0, 0, 0⟩

/-- How many octets some characters take. -/
def octets (cs : List Char) : Nat := cs.foldl (· + ·.utf8Size) 0

/-- Some characters further on the same line. -/
def skip (n : Nat) (c : Cursor) : Cursor :=
  { c with
    rest := c.rest.drop n
    offset := c.offset + octets (c.rest.take n)
    column := c.column + n }

/-- The characters that come, as long as they satisfy `p`. -/
def run (p : Char → Bool) (c : Cursor) : List Char := c.rest.takeWhile p

/-- Behind the characters that satisfy `p`. -/
def skipWhile (p : Char → Bool) (c : Cursor) : Cursor := c.skip (c.run p).length

/-- Behind the break that comes, at the start of the next line. -/
def nextLine (c : Cursor) : Cursor :=
  match c.rest with
  | '\r' :: '\n' :: rest => ⟨rest, c.offset + 2, c.line + 1, 0⟩
  | d :: rest => ⟨rest, c.offset + d.utf8Size, c.line + 1, 0⟩
  | [] => c

/-- Whether a break comes. -/
def atBreak (c : Cursor) : Bool := c.rest.head?.any isBreak

/-- Whether a line begins here with three times the character `mark`, and nothing adjoining. -/
def atMarker (c : Cursor) (mark : Char) : Bool :=
  c.column == 0 &&
    match c.rest with
    | x :: y :: z :: rest => x == mark && y == mark && z == mark && endsWord rest
    | _ => false

/-- Whether a line begins here that separates documents. -/
def atBoundary (c : Cursor) : Bool := c.atMarker '-' || c.atMarker '.'

/-- Behind blanks and a comment, which need not be there. -/
def skipComment (c : Cursor) : Cursor :=
  let c := c.skipWhile isBlank
  if c.rest.head? = some '#' then c.skipWhile (!isBreak ·) else c

/-- Ends a line on which only blanks and a comment are left. -/
def endLine? (c : Cursor) : Option Cursor :=
  let c := c.skipComment
  if c.atBreak then some c.nextLine else if c.rest.isEmpty then some c else none

end Cursor

end Document

end BehaviorTree
