import BehaviorTree.Document.Scalar.Block
import BehaviorTree.Document.Scalar.Plain
import BehaviorTree.Document.Scalar.Quoted
import BehaviorTree.Document.Token.Directive

/-!
# The tokens of a document

A document is cut into tokens from left to right. A token that may turn out to begin a key is
remembered until a colon comes: the key is marked ahead of it, and if it is indented deeper than
the mapping it stands in, a new mapping begins with it. Such a key lies on one line and takes at
most 1024 octets. A line that is indented less than the lists and mappings before it ends them.
-/

namespace BehaviorTree

namespace Document

/-- A token that may turn out to begin a key. -/
structure KeyStart where
  /-- Whether a colon has to come, because the token stands where a mapping goes on. -/
  required : Bool
  /-- How many tokens came before. -/
  count : Nat
  /-- The place of the token. -/
  place : Cursor

namespace KeyStart

/-- How many octets a key may take. -/
def maxSize : Nat := 1024

/-- Whether a key that begins there would be too long, or take more than one line. -/
def isPast (k : KeyStart) (c : Cursor) : Bool :=
  k.place.line < c.line || k.place.offset + maxSize < c.offset

end KeyStart

/-- What is known about a document up to a place. -/
structure Lexer where
  cursor : Cursor
  /-- The tokens so far, the last first. -/
  tokens : List Token
  /-- How many tokens there are. -/
  count : Nat
  /-- The columns of the lists and mappings of lines that are open, the innermost first. -/
  columns : List Nat
  /-- Whether a key may begin here. -/
  keyAllowed : Bool
  /-- The last token that may begin a key, among those in the innermost brackets. -/
  keyStart : Option KeyStart
  /-- The same outside each pair of brackets that is open, the innermost first. -/
  outer : List (Option KeyStart)

namespace Lexer

/-- The start of a document. -/
def ofText (text : String) : Lexer where
  cursor := .ofText text
  tokens := []
  count := 0
  columns := []
  keyAllowed := true
  keyStart := none
  outer := []

/-- Whether brackets are open. -/
def inFlow (l : Lexer) : Bool := !l.outer.isEmpty

/-- The least column of what belongs to the innermost list or mapping of lines. -/
def margin (l : Lexer) : Nat := l.columns.head?.elim 0 (· + 1)

/-- Adds a token. -/
def push (t : Token) (l : Lexer) : Lexer :=
  { l with tokens := t :: l.tokens, count := l.count + 1 }

/-- Adds a token that takes some characters. -/
def take (n : Nat) (t : Token) (l : Lexer) : Lexer :=
  { l.push t with cursor := l.cursor.skip n }

/-- Adds a token behind the first `count` ones. -/
def insertAt (count : Nat) (t : Token) (l : Lexer) : Lexer :=
  let later := l.count - count
  { l with tokens := l.tokens.take later ++ t :: l.tokens.drop later, count := l.count + 1 }

/-- Begins a list or mapping of lines at a column, if it is right of all that are open; its first
token comes behind the first `count` ones. -/
def beginBlock (column count : Nat) (t : Token) (l : Lexer) : Lexer :=
  if !l.inFlow && l.margin ≤ column then
    { l.insertAt count t with columns := column :: l.columns }
  else l

/-- Ends the lists and mappings of lines that satisfy `p`, the innermost first. -/
def endBlocks (p : Nat → Bool) (l : Lexer) : Lexer :=
  if l.inFlow then l
  else
    let ended := (l.columns.takeWhile p).length
    { l with
      tokens := List.replicate ended .blockEnd ++ l.tokens
      count := l.count + ended
      columns := l.columns.drop ended }

/-- Gives up the key that may have begun, unless it is required. -/
def dropKey? (l : Lexer) : Option Lexer :=
  if l.keyStart.any (·.required) then none else some { l with keyStart := none }

/-- Gives up a key that would be too long. -/
def dropPastKey? (l : Lexer) : Option Lexer :=
  if l.keyStart.any (·.isPast l.cursor) then l.dropKey? else some l

/-- Remembers that a key may begin here. -/
def mayBeginKey? (l : Lexer) : Option Lexer :=
  if l.keyAllowed then
    l.dropKey?.map fun l =>
      let required := !l.inFlow && l.columns.head? == some l.cursor.column
      { l with keyStart := some ⟨required, l.count, l.cursor⟩ }
  else some l

/-- Passes over blanks, comments and breaks. A tab counts as a blank only where no key may begin.
A byte order mark may begin a line. -/
def skipSpace : Nat → Lexer → Lexer
  | 0, l => l
  | fuel + 1, l =>
    let c := l.cursor
    let c := if c.column = 0 ∧ c.rest.head? = some '\ufeff' then c.skip 1 else c
    let tabs := l.inFlow || !l.keyAllowed
    let c := c.skipWhile fun d => d == ' ' || (tabs && d == '\t')
    let c := if c.rest.head? = some '#' then c.skipWhile (!isBreak ·) else c
    if c.atBreak then
      skipSpace fuel { l with cursor := c.nextLine, keyAllowed := l.keyAllowed || !l.inFlow }
    else { l with cursor := c }

/-- Ends all lists and mappings of lines, as a line at the left margin does that belongs to none. -/
def leaveBlocks? (l : Lexer) : Option Lexer :=
  (l.endBlocks fun _ => true).dropKey?.map fun l => { l with keyAllowed := false }

/-- A line ahead of a document. -/
def directive? (l : Lexer) : Option Lexer := do
  let l ← l.leaveBlocks?
  let (t, c) ← (l.cursor.skip 1).directive?
  return { l.push t with cursor := c }

/-- A line that separates documents. -/
def boundary? (t : Token) (l : Lexer) : Option Lexer := l.leaveBlocks?.map (take 3 t)

/-- An opening bracket. -/
def openBracket? (t : Token) (l : Lexer) : Option Lexer :=
  l.mayBeginKey?.map fun l =>
    { l.take 1 t with keyAllowed := true, keyStart := none, outer := l.keyStart :: l.outer }

/-- A closing bracket. -/
def closeBracket? (t : Token) (l : Lexer) : Option Lexer :=
  l.dropKey?.map fun l =>
    { l.take 1 t with
      keyAllowed := false
      keyStart := l.outer.head?.join
      outer := l.outer.tail }

/-- A comma. -/
def comma? (l : Lexer) : Option Lexer :=
  l.dropKey?.map fun l => { l.take 1 .comma with keyAllowed := true }

/-- A dash ahead of an item. -/
def dash? (l : Lexer) : Option Lexer :=
  if !l.inFlow && !l.keyAllowed then none
  else
    (l.beginBlock l.cursor.column l.count .listStart).dropKey?.map fun l =>
      { l.take 1 .dash with keyAllowed := true }

/-- A question mark ahead of a key. -/
def key? (l : Lexer) : Option Lexer :=
  if !l.inFlow && !l.keyAllowed then none
  else
    (l.beginBlock l.cursor.column l.count .mappingStart).dropKey?.map fun l =>
      { l.take 1 .key with keyAllowed := !l.inFlow }

/-- A colon ahead of a value. -/
def value? (l : Lexer) : Option Lexer :=
  match l.keyStart with
  | some k =>
    let l := (l.insertAt k.count .key).beginBlock k.place.column k.count .mappingStart
    some { l.take 1 .value with keyAllowed := false, keyStart := none }
  | none =>
    if !l.inFlow && !l.keyAllowed then none
    else
      let l := l.beginBlock l.cursor.column l.count .mappingStart
      some { l.take 1 .value with keyAllowed := !l.inFlow }

/-- A name, a tag or a scalar that `read` takes from the text; it may begin a key. -/
def atom? (read : Cursor → Option (Token × Cursor)) (l : Lexer) : Option Lexer := do
  let l ← l.mayBeginKey?
  let (t, c) ← read l.cursor
  return { l.push t with cursor := c, keyAllowed := false }

/-- A scalar without quotes; if it ends behind a break, a key may begin there. -/
def plain? (fuel : Nat) (l : Lexer) : Option Lexer := do
  let l ← l.mayBeginKey?
  let (text, broken, c) ← l.cursor.plain? l.inFlow l.margin fuel
  return { l.push (.scalar .plain text) with cursor := c, keyAllowed := broken }

/-- A scalar in lines of its own. -/
def block? (fuel : Nat) (style : Style) (l : Lexer) : Option Lexer := do
  let l ← l.dropKey?
  let (text, c) ← (l.cursor.skip 1).block? (style == .literal) l.margin fuel
  return { l.push (.scalar style text) with cursor := c, keyAllowed := true }

/-- The token that begins with the next character, which is neither blank nor a break. -/
def token? (fuel : Nat) (l : Lexer) : Option Lexer :=
  match l.cursor.rest with
  | [] => none
  | c :: rest =>
    let alone := l.inFlow || endsWord rest
    match c with
    | '[' => l.openBracket? .bracketStart
    | ']' => l.closeBracket? .bracketEnd
    | '\x7b' => l.openBracket? .braceStart
    | '\x7d' => l.closeBracket? .braceEnd
    | ',' => l.comma?
    | '-' => if endsWord rest then l.dash? else l.plain? fuel
    | '?' => if alone then l.key? else l.plain? fuel
    | ':' => if alone then l.value? else l.plain? fuel
    | '*' => l.atom? fun c => (c.skip 1).name?.map fun r => (.reference r.1, r.2)
    | '&' => l.atom? fun c => (c.skip 1).name?.map fun r => (.anchor r.1, r.2)
    | '!' => l.atom? fun c => (c.skip 1).tag? l.inFlow
    | '|' => if l.inFlow then none else l.block? fuel .literal
    | '>' => if l.inFlow then none else l.block? fuel .folded
    | '\'' | '"' =>
      l.atom? fun d => ((d.skip 1).quoted? c fuel).map fun r => (.scalar .quoted r.1, r.2)
    | '#' | '%' | '@' | '\x60' => none
    | _ => if isSolid c then l.plain? fuel else none

/-- The tokens up to the end of the text. -/
def tokens? : Nat → Lexer → Option (List Token)
  | 0, _ => none
  | fuel + 1, l => do
    let l ← (l.skipSpace fuel).dropPastKey?
    let l := l.endBlocks (l.cursor.column < ·)
    if l.cursor.rest.isEmpty then
      let l ← l.leaveBlocks?
      return l.tokens.reverse
    else if l.cursor.column = 0 ∧ l.cursor.rest.head? = some '%' then
      (l.directive?).bind (tokens? fuel)
    else if l.cursor.atMarker '-' then (l.boundary? .documentStart).bind (tokens? fuel)
    else if l.cursor.atMarker '.' then (l.boundary? .documentEnd).bind (tokens? fuel)
    else (l.token? fuel).bind (tokens? fuel)

end Lexer

/-- The tokens of a text that holds no character other than allowed ones. -/
def Token.ofText? (text : String) : Option (List Token) :=
  let l := Lexer.ofText text
  if l.cursor.rest.all isAllowed then l.tokens? (l.cursor.rest.length + 2) else none

end Document

end BehaviorTree
