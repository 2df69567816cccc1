import BehaviorTree.Document.Cursor
import BehaviorTree.Document.Token.Basic
import BehaviorTree.Text.Digits

/-!
# Names and tags of nodes

A node may be given a name, by which it is referred to later, and a tag. A tag is written in full
between angle brackets, or after a handle that stands for its beginning. In a tag a percent sign
gives an octet by two hexadecimal digits; the octets have to be sequences of an encoding in which
the first octet of a character tells how many follow it. The text of a tag has one character for
each octet.
-/

namespace BehaviorTree

namespace Document

/-- Whether a character may stand in a tag as it is; one that is written in full may hold more. -/
def isTagChar (full : Bool) (c : Char) : Bool :=
  isNameChar c ||
    [';', '/', '?', ':', '@', '&', '=', '+', '$', '.', '!', '~', '*', '\'', '(', ')'].contains c ||
    (full && [',', '[', ']'].contains c)

/-- How many octets follow the first one of a character; no character begins with some octets. -/
def octetsBehind? (first : Nat) : Option Nat :=
  if first < 0x80 then some 0
  else if first < 0xC0 then none
  else if first < 0xE0 then some 1
  else if first < 0xF0 then some 2
  else if first < 0xF8 then some 3
  else none

/-- Reads the text of a tag: the text, which ends at a null octet, and how many characters of the
document it takes. `pending` is how many octets have yet to follow, `found` holds the text so far,
the last first, and `size` the characters taken so far. -/
def tagText? (full : Bool) (pending : Nat) (found : List Char) (size : Nat) :
    List Char → Option (String × Nat)
  | '%' :: a :: b :: rest =>
    match Digits.toNat? 16 [a, b] with
    | none => none
    | some octet =>
      match pending with
      | 0 => (octetsBehind? octet).bind fun behind =>
        tagText? full behind (Char.ofNat octet :: found) (size + 3) rest
      | pending + 1 =>
        if 0x80 ≤ octet ∧ octet < 0xC0 then
          tagText? full pending (Char.ofNat octet :: found) (size + 3) rest
        else none
  | cs =>
    match cs with
    | [] => if pending = 0 then finish found size else none
    | c :: rest =>
      if c = '%' ∨ pending ≠ 0 then none
      else if isTagChar full c then tagText? full 0 (c :: found) (size + 1) rest
      else finish found size
where
  /-- The text up to a null octet. -/
  finish (found : List Char) (size : Nat) : Option (String × Nat) :=
    some (String.ofList (found.reverse.takeWhile (· ≠ '\x00')), size)

/-- Reads the name of a node or of a reference behind the character that begins it. -/
def Cursor.name? (c : Cursor) : Option (String × Cursor) :=
  let name := c.run isNameChar
  let next := c.skip name.length
  if name.isEmpty then none
  else if endsWord next.rest || startsWith ['?', ':', ',', ']', '\x7d', '%', '@', '\x60'] next.rest
  then some (String.ofList name, next)
  else none

/-- Reads a tag behind the exclamation mark that begins it. -/
def Cursor.tag? (flow : Bool) (c : Cursor) : Option (Token × Cursor) := do
  let (token, c) ←
    if c.rest.head? == some '<' then do
      let (text, n) ← tagText? true 0 [] 0 c.rest.tail
      let c := c.skip (n + 1)
      if n = 0 ∨ c.rest.head? ≠ some '>' then none
      else some (Token.tag "" text, c.skip 1)
    else do
      let name := c.run isNameChar
      let next := c.skip name.length
      if next.rest.head? == some '!' then do
        let next := next.skip 1
        let (text, n) ← tagText? false 0 [] 0 next.rest
        if n = 0 then none
        else some (Token.tag ("!" ++ String.ofList name ++ "!") text, next.skip n)
      else do
        let (text, n) ← tagText? false 0 [] 0 c.rest
        some (if text.isEmpty then Token.tag "" "!" else Token.tag "!" text, c.skip n)
  if endsWord c.rest || (flow && c.rest.head? == some ',') then some (token, c) else none

end Document

end BehaviorTree
