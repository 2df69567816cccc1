import BehaviorTree.Document.Scalar.Fold
import BehaviorTree.Text.Digits

/-!
# Scalars in quotes

In single quotes only the quote sign is special: it is written twice. In double quotes a backslash
begins an escape, and one at the end of a line joins the next line without a blank.
-/

namespace BehaviorTree

namespace Document

namespace Quoted

/-- The character that is given by some hexadecimal digits, and how many characters the escape
takes behind the backslash. -/
def numbered? (digits : Nat) (cs : List Char) : Option (Char × Nat) :=
  let cs := cs.take digits
  if cs.length < digits then none
  else
    match Digits.toNat? 16 cs with
    | some n => if n.isValidChar then some (Char.ofNat n, digits + 1) else none
    | none => none

/-- The character for which the text behind a backslash stands, and how many characters it
takes. -/
def escape? : List Char → Option (Char × Nat)
  | [] => none
  | c :: rest =>
    match c with
    | '0' => some ('\x00', 1)
    | 'a' => some ('\x07', 1)
    | 'b' => some ('\x08', 1)
    | 't' | '\t' => some ('\t', 1)
    | 'n' => some ('\n', 1)
    | 'v' => some ('\x0b', 1)
    | 'f' => some ('\x0c', 1)
    | 'r' => some ('\r', 1)
    | 'e' => some ('\x1b', 1)
    | ' ' | '"' | '/' | '\\' => some (c, 1)
    | 'N' => some ('\u0085', 1)
    | '_' => some ('\u00a0', 1)
    | 'L' => some ('\u2028', 1)
    | 'P' => some ('\u2029', 1)
    | 'x' => numbered? 2 rest
    | 'u' => numbered? 4 rest
    | 'U' => numbered? 8 rest
    | _ => none

/-- Reads up to the closing quote; `found` holds the text so far, the last first. No line that
separates documents may come before the quote. -/
def read? (quote : Char) : Nat → List Char → Cursor → Option (List Char × Cursor)
  | 0, _, _ => none
  | fuel + 1, found, c =>
    if c.atBoundary then none
    else
      match c.rest with
      | [] => none
      | d :: rest =>
        if d == quote then
          if quote == '\'' && rest.head? == some '\'' then
            read? quote fuel ('\'' :: found) (c.skip 2)
          else some (found.reverse, c.skip 1)
        else if quote == '"' && d == '\\' then
          if rest.head?.any isBreak then do
            let (breaks, c) ← (c.skip 1).breaks? 0 fuel []
            read? quote fuel (breaks.tail.reverseAux found) c
          else do
            let (e, n) ← escape? rest
            read? quote fuel (e :: found) (c.skip (n + 1))
        else if isSolid d then read? quote fuel (d :: found) (c.skip 1)
        else do
          let (gap, c) ← c.gap? 0 fuel
          read? quote fuel (gap.text.reverseAux found) c

end Quoted

/-- Reads a scalar behind its opening quote. -/
def Cursor.quoted? (quote : Char) (fuel : Nat) (c : Cursor) : Option (String × Cursor) :=
  (Quoted.read? quote fuel [] c).map fun r => (String.ofList r.1, r.2)

end Document

end BehaviorTree
