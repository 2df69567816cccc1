import BehaviorTree.Document.Basic

/-!
# Collections that are open

While a document is read, each list or mapping that has begun and not yet ended is a frame. A frame
looks at the tokens that come and says how the reading goes on.
-/

namespace BehaviorTree

namespace Document

/-- How a list is written. -/
inductive ListForm where
  /-- As dashed lines with an indentation of their own. -/
  | block
  /-- As dashed lines at the indentation of the key they belong to. -/
  | level
  /-- In brackets. -/
  | flow
  deriving DecidableEq

/-- What a mapping waits for. -/
inductive Slot where
  | key
  /-- A key that gets no value. -/
  | lone
  /-- The value of a key. -/
  | value (key : Content)

/-- A collection that is open, with what it holds so far, the last first. -/
inductive Frame where
  /-- The document as a whole. -/
  | whole (content : Option Content)
  | list (form : ListForm) (anchor : Option Anchor) (items : List Content)
  /-- A mapping of lines or, in flow, one in braces. -/
  | mapping (flow : Bool) (anchor : Option Anchor) (entries : List (Content × Content))
      (slot : Slot)
  /-- A mapping with one entry that stands without braces in a list in brackets. -/
  | pair (slot : Slot)

/-- How the reading goes on. -/
inductive Step where
  /-- A node comes, for the frame given; `block` says whether it may be laid out in lines, and
  `level` whether it may be a list at the indentation of its key. -/
  | await (block level : Bool) (frame : Frame)
  /-- The frame is replaced by others. -/
  | enter (frames : List Frame)
  /-- The collection is complete. -/
  | close (anchor : Option Anchor) (content : Content)

namespace Frame

/-- Puts a node into the innermost of some frames. -/
def place (node : Content) : List Frame → List Frame
  | [] => []
  | whole _ :: fs => whole (some node) :: fs
  | list form a items :: fs => list form a (node :: items) :: fs
  | mapping flow a entries .key :: fs => mapping flow a entries (.value node) :: fs
  | mapping flow a entries .lone :: fs => mapping flow a ((node, .empty) :: entries) .key :: fs
  | mapping flow a entries (.value k) :: fs => mapping flow a ((k, node) :: entries) .key :: fs
  | pair (.value k) :: fs => place (.mapping [(k, node)]) fs
  | pair _ :: fs => pair (.value node) :: fs

/-- Goes on with an empty node if one of `kinds` comes, and with a node otherwise. -/
def fill (kinds : List Token) (block level : Bool) (frame : Frame) (ts : List Token) :
    Step × List Token :=
  if Token.comes kinds ts then (.enter (place .empty [frame]), ts)
  else (.await block level frame, ts)

/-- Passes over the comma that has to come unless nothing came before. -/
def separated? (first : Bool) : List Token → Option (List Token)
  | .comma :: ts => if first then some (.comma :: ts) else some ts
  | ts => if first then some ts else none

/-- A list is complete. -/
def closeList (a : Option Anchor) (items : List Content) : Step := .close a (.list items.reverse)

/-- A mapping is complete. -/
def closeMapping (a : Option Anchor) (entries : List (Content × Content)) : Step :=
  .close a (.mapping entries.reverse)

/-- How a list goes on. -/
def stepList? (form : ListForm) (a : Option Anchor) (items : List Content) (ts : List Token) :
    Option (Step × List Token) :=
  let frame := list form a items
  match form with
  | .block =>
    match ts with
    | .dash :: ts => some (frame.fill [.dash, .blockEnd] true false ts)
    | .blockEnd :: ts => some (closeList a items, ts)
    | _ => none
  | .level =>
    match ts with
    | .dash :: ts => some (frame.fill [.dash, .key, .value, .blockEnd] true false ts)
    | _ => some (closeList a items, ts)
  | .flow =>
    match ts with
    | .bracketEnd :: ts => some (closeList a items, ts)
    | _ =>
      match separated? items.isEmpty ts with
      | none => none
      | some (.key :: ts) => some (.enter [pair .key, frame], ts)
      | some (.bracketEnd :: ts) => some (closeList a items, ts)
      | some ts => some (.await false false frame, ts)

/-- How a mapping goes on. -/
def stepMapping? (flow : Bool) (a : Option Anchor) (entries : List (Content × Content))
    (slot : Slot) (ts : List Token) : Option (Step × List Token) :=
  let frame := mapping flow a entries slot
  match flow, slot with
  | false, .value _ =>
    match ts with
    | .value :: ts => some (frame.fill [.key, .value, .blockEnd] true true ts)
    | _ => some (.enter (place .empty [frame]), ts)
  | false, _ =>
    match ts with
    | .key :: ts => some (frame.fill [.key, .value, .blockEnd] true true ts)
    | .blockEnd :: ts => some (closeMapping a entries, ts)
    | _ => none
  | true, .value _ =>
    match ts with
    | .value :: ts => some (frame.fill [.comma, .braceEnd] false false ts)
    | _ => some (.enter (place .empty [frame]), ts)
  | true, _ =>
    match ts with
    | .braceEnd :: ts => some (closeMapping a entries, ts)
    | _ =>
      match separated? entries.isEmpty ts with
      | none => none
      | some (.key :: ts) => some (frame.fill [.value, .comma, .braceEnd] false false ts)
      | some (.braceEnd :: ts) => some (closeMapping a entries, ts)
      | some ts => some (.await false false (mapping true a entries .lone), ts)

/-- How a mapping with one entry goes on. Where its key is missing, what stands in the place of
the key is passed over. -/
def stepPair (slot : Slot) (ts : List Token) : Step × List Token :=
  match slot with
  | .value k =>
    let done := Step.close none (.mapping [(k, .empty)])
    match ts with
    | .value :: ts =>
      if Token.comes [.comma, .bracketEnd] ts then (done, ts)
      else (.await false false (pair slot), ts)
    | _ => (done, ts)
  | _ =>
    if Token.comes [.value, .comma, .bracketEnd] ts then
      (.enter [pair (.value .empty)], ts.tail)
    else (.await false false (pair .key), ts)

/-- How the reading goes on in a frame. -/
def step? (frame : Frame) (ts : List Token) : Option (Step × List Token) :=
  match frame with
  | whole _ => some (.await true false frame, ts)
  | list form a items => stepList? form a items ts
  | mapping flow a entries slot => stepMapping? flow a entries slot ts
  | pair slot => some (stepPair slot ts)

end Frame

end Document

end BehaviorTree
