import BehaviorTree.Document.Frame
import BehaviorTree.Document.Token.Lexer

/-!
# Reading a document

The tokens of a text are put together to a document. A text holds one document, or none, which
counts as an empty one. Lines ahead of the document end with a line of three dashes.
-/

namespace BehaviorTree

namespace Document

/-- The names that were given so far. -/
structure Names where
  /-- The number that a name has at present. -/
  numbers : List (String × Nat)
  /-- How many nodes with a name began. -/
  count : Nat
  /-- The nodes with a name that are complete. -/
  anchored : List (Anchor × Content)

namespace Names

/-- No names. -/
def none : Names := ⟨[], 0, []⟩

/-- Gives a name to the node that begins. -/
def bind (name : String) (n : Names) : Anchor × Names :=
  let number := n.numbers.length
  let numbers :=
    if n.numbers.any (·.1 == name) then
      n.numbers.map fun e => if e.1 == name then (name, number) else e
    else (name, number) :: n.numbers
  (⟨number, n.count⟩, { n with numbers, count := n.count + 1 })

/-- Keeps a node that is complete, if it has a name. -/
def keep (anchor : Option Anchor) (content : Content) (n : Names) : Names :=
  match anchor with
  | some a => { n with anchored := (a, content) :: n.anchored }
  | .none => n

end Names

/-- What comes ahead of a node. -/
structure Properties where
  anchor : Option String
  /-- The handle and the rest of a tag. -/
  tag : Option (String × String)

namespace Properties

/-- Reads a name and a tag, in either order. -/
def ofTokens : List Token → Properties × List Token
  | .anchor a :: .tag h s :: ts => (⟨some a, some (h, s)⟩, ts)
  | .tag h s :: .anchor a :: ts => (⟨some a, some (h, s)⟩, ts)
  | .anchor a :: ts => (⟨some a, none⟩, ts)
  | .tag h s :: ts => (⟨none, some (h, s)⟩, ts)
  | ts => (⟨none, none⟩, ts)

/-- Whether nothing came. -/
def isEmpty (p : Properties) : Bool := p.anchor.isNone && p.tag.isNone

end Properties

/-- What the handles stand for where nothing is said. -/
def standardHandles : List (String × String) := [("!", "!"), ("!!", "tag:yaml.org,2002:")]

/-- The whole text of a tag; its handle must be known. -/
def expand? (handles : List (String × String)) (handle rest : String) : Option String :=
  if handle.isEmpty then some rest else (handles.lookup handle).map (· ++ rest)

/-- What is open and what was named, at some place among the tokens. -/
structure Reading where
  frames : List Frame
  names : Names
  tokens : List Token

namespace Reading

/-- Reads a node, or the start of one. -/
def node? (handles : List (String × String)) (block level : Bool) (r : Reading) :
    Option Reading := do
  let (p, ts) := Properties.ofTokens r.tokens
  let tag ← match p.tag with
    | some (handle, rest) => (expand? handles handle rest).map some
    | none => some none
  let (anchor, names) := match p.anchor with
    | some name => (some (r.names.bind name).1, (r.names.bind name).2)
    | none => (none, r.names)
  let opened (frame : Frame) (ts : List Token) : Option Reading :=
    some ⟨frame :: r.frames, names, ts⟩
  let scalar (tag : Option String) (style : Style) (text : String) (ts : List Token) :
      Option Reading :=
    let c := Content.scalar tag style text
    some ⟨Frame.place c r.frames, names.keep anchor c, ts⟩
  match ts with
  | .scalar style text :: ts => scalar (tag.filter (· != "!")) style text ts
  | .bracketStart :: ts => opened (.list .flow anchor []) ts
  | .braceStart :: ts => opened (.mapping true anchor [] .key) ts
  | t :: ts' =>
    if t = .dash ∧ level then opened (.list .level anchor []) ts
    else if t = .listStart ∧ block then opened (.list .block anchor []) ts'
    else if t = .mappingStart ∧ block then opened (.mapping false anchor [] .key) ts'
    else if !p.isEmpty then scalar tag .plain "" ts
    else
      match t with
      | .reference name =>
        (r.names.numbers.lookup name).map fun number =>
          ⟨Frame.place (.reference number) r.frames, names, ts'⟩
      | _ => none
  | [] => if p.isEmpty then none else scalar tag .plain "" []

/-- Reads on until the document is complete. -/
def run? (handles : List (String × String)) : Nat → Reading → Option (Document × List Token)
  | 0, _ => none
  | fuel + 1, r =>
    match r.frames with
    | [] => none
    | .whole (some root) :: _ => some (⟨root, r.names.anchored⟩, r.tokens)
    | frame :: outer => do
      let (step, ts) ← frame.step? r.tokens
      match step with
      | .await block level frame =>
        (node? handles block level ⟨frame :: outer, r.names, ts⟩).bind (run? handles fuel)
      | .enter frames => run? handles fuel ⟨frames ++ outer, r.names, ts⟩
      | .close anchor content =>
        run? handles fuel ⟨Frame.place content outer, r.names.keep anchor content, ts⟩

end Reading

/-- The document with which some tokens begin, and the tokens behind it. -/
def content? (handles : List (String × String)) (ts : List Token) :
    Option (Document × List Token) :=
  Reading.run? handles (4 * ts.length + 4) ⟨[.whole none], .none, ts⟩

/-- The handles that the lines ahead of a document define; the version is named once at most, and
so is each handle. -/
def handles? (ts : List Token) : Option (List (String × String)) :=
  let versions := ts.filterMap fun | .version major minor => some (major, minor) | _ => none
  let handles := ts.filterMap fun | .handle name text => some (name, text) | _ => none
  if versions.length ≤ 1 ∧ versions.all (fun v => v.1 = 1 ∧ (v.2 = 1 ∨ v.2 = 2)) ∧
      (handles.map Prod.fst).Nodup then
    some (handles ++ standardHandles)
  else none

/-- An empty document. -/
def empty : Document := ⟨.empty, []⟩

/-- Puts tokens together to a document. -/
def ofTokens? (ts : List Token) : Option Document := do
  let directives := ts.takeWhile Token.isDirective
  let (d, rest) ← match directives, ts.dropWhile Token.isDirective with
    | [], [] => some (empty, [])
    | _, .documentStart :: ts => do
      let handles ← handles? directives
      if ts.head?.all fun t => t.isDirective || t == .documentStart || t == .documentEnd then
        some (empty, ts)
      else content? handles ts
    | [], ts => content? standardHandles ts
    | _, _ => none
  if rest.all (· == .documentEnd) then some d else none

/-- Reads a document. -/
def ofText? (text : String) : Option Document := (Token.ofText? text).bind ofTokens?

end Document

end BehaviorTree
