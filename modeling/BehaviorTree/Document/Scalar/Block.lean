import BehaviorTree.Document.Cursor

/-!
# Scalars in lines of their own

A bar or an angle bracket begins a scalar that is laid out in the lines below. Its header may say
how deep the lines are indented and what becomes of the breaks at the end; otherwise the first
line that is not empty gives the indentation, and one break is kept.
-/

namespace BehaviorTree

namespace Document

namespace Block

/-- What becomes of the breaks at the end. -/
inductive Ending where
  /-- None is kept. -/
  | strip
  /-- One is kept. -/
  | clip
  /-- All are kept. -/
  | keep

/-- What a header says. -/
structure Header where
  ending : Ending
  /-- How much deeper than their surroundings the lines are indented, if it is said. -/
  depth : Option Nat
  /-- How many characters the header takes. -/
  size : Nat

/-- The ending that a character asks for. -/
def ending? : Char → Option Ending
  | '+' => some .keep
  | '-' => some .strip
  | _ => none

/-- Reads a header: an ending and a depth from one to nine, in either order. -/
def header? (cs : List Char) : Option Header :=
  let depthOf (c : Char) : Option (Option Nat) :=
    if !c.isDigit then some none
    else if c == '0' then none
    else some (some (c.toNat - '0'.toNat))
  match cs with
  | [] => some ⟨.clip, none, 0⟩
  | c :: rest =>
    match ending? c, rest with
    | some e, d :: _ =>
      (depthOf d).map fun depth => ⟨e, depth, if depth.isSome then 2 else 1⟩
    | some e, [] => some ⟨e, none, 1⟩
    | none, _ =>
      match depthOf c, rest.head?.bind ending? with
      | none, _ => none
      | some none, _ => some ⟨.clip, none, 0⟩
      | some depth, some e => some ⟨e, depth, 2⟩
      | some depth, none => some ⟨.clip, depth, 1⟩

/-- Passes over lines that hold nothing but their indentation, up to a column if one is given, and
over the indentation of the line behind them. `widest` is the rightmost column so far, and `found`
holds the breaks so far, the last first. No tab may stand in the indentation. -/
def emptyLines? (indent : Option Nat) :
    Nat → Nat → List Char → Cursor → Option (Nat × List Char × Cursor)
  | 0, _, _, _ => none
  | fuel + 1, widest, found, c =>
    let spaces := (c.run (· == ' ')).length
    let c := c.skip (match indent with
      | some i => min spaces (i - c.column)
      | none => spaces)
    let widest := max widest c.column
    match c.rest with
    | [] => some (widest, found.reverse, c)
    | d :: _ =>
      if d == '\t' && indent.all (c.column < ·) then none
      else if isBreak d then emptyLines? indent fuel widest (breakText d :: found) c.nextLine
      else some (widest, found.reverse, c)

/-- Reads the lines at an indentation. `found` holds the text so far, the last first; `break`
is the break of the last line, and `empty` those of the empty lines behind it; `blank` says
whether the last line began with a blank. Two lines are joined by a blank if they are folded and
neither begins with one. It gives the text and the breaks that are left at the end. -/
def lines? (literal : Bool) (indent : Nat) :
    Nat → List Char → List Char → List Char → Bool → Cursor →
      Option (List Char × List Char × List Char × Cursor)
  | 0, _, _, _, _, _ => none
  | fuel + 1, found, last, empty, blank, c =>
    if c.column ≠ indent ∨ c.rest.isEmpty then some (found.reverse, last, empty, c)
    else do
      let starts := c.rest.head?.any isBlank
      let folds := !literal && last == ['\n'] && !blank && !starts
      let joint := if folds then (if empty.isEmpty then [' '] else empty) else last ++ empty
      let line := c.run (!isBreak ·)
      let found := line.reverseAux (joint.reverseAux found)
      let c := c.skip line.length
      let last := (c.rest.head?.map breakText).toList
      let (_, empty, c) ← emptyLines? (some indent) fuel 0 [] c.nextLine
      lines? literal indent fuel found last empty starts c

end Block

/-- Reads a scalar behind the character that begins it; `margin` is the least indentation that
its lines may have. -/
def Cursor.block? (literal : Bool) (margin fuel : Nat) (c : Cursor) :
    Option (String × Cursor) := do
  let header ← Block.header? c.rest
  let c ← (c.skip header.size).endLine?
  let given := header.depth.map (margin - 1 + ·)
  let (widest, empty, c) ← Block.emptyLines? given fuel 0 [] c
  let indent := given.getD (max (max widest margin) 1)
  let (text, last, empty, c) ← Block.lines? literal indent fuel [] [] empty false c
  let ending := match header.ending with
    | .strip => []
    | .clip => last
    | .keep => last ++ empty
  return (String.ofList (text ++ ending), c)

end Document

end BehaviorTree
