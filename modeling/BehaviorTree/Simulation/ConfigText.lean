import BehaviorTree.Decimal.Numeral
import BehaviorTree.Document.Reading
import BehaviorTree.Simulation.Config

/-!
# Settings as documents

A configuration is written as a document of two levels. When it is read, every field may be left
out, unknown fields are passed over, and a known field must occur once at most and hold a value of
its type.
-/

namespace BehaviorTree

namespace Simulation

open Document (Content)

/-- The text of a key, which has to be a scalar. -/
def keyText? (d : Document) (c : Content) : Option String :=
  match d.resolve c with
  | .scalar _ _ text => some text
  | _ => none

/-- The entries of a mapping; one of which nothing is written has none. -/
def fields? (d : Document) (c : Content) : Option (List (String × Content)) :=
  match d.resolve c with
  | .mapping entries => entries.mapM fun e => (keyText? d e.1).map (·, e.2)
  | .scalar _ .plain "" => some []
  | _ => none

/-- A field of a mapping read by `read`, or the default when it is left out. -/
def field {α : Type} (entries : List (String × Content)) (name : String) (default : α)
    (read : Content → Option α) : Option α :=
  match entries.filter (·.1 == name) with
  | [] => some default
  | [entry] => read entry.2
  | _ => none

/-- The text that can stand for a value of a kind: that of a plain scalar, whatever its tag, or of
one whose lines keep their breaks and whose tag names the kind. -/
def typedText? (kind : String) (d : Document) (c : Content) : Option String :=
  match d.resolve c with
  | .scalar _ .plain text => some text
  | .scalar (some tag) .literal text =>
    if tag = "tag:yaml.org,2002:" ++ kind then some text else none
  | _ => none

/-- The whole number that a text stands for: decimal without leading zeros, or marked as
hexadecimal, octal or binary; a plus sign may come first. -/
def natural? (text : String) : Option Nat :=
  let cs := match text.toList with
    | '+' :: rest => rest
    | cs => cs
  match cs with
  | '0' :: 'x' :: rest => Digits.toNat? 16 rest
  | '0' :: 'o' :: rest => Digits.toNat? 8 rest
  | '0' :: 'b' :: rest => Digits.toNat? 2 rest
  | '0' :: _ :: _ => none
  | cs => Digits.toNat? 10 cs

/-- A whole number below a bound. -/
def word? (bound : Nat) (d : Document) (c : Content) : Option Nat :=
  ((typedText? "int" d c).bind natural?).filter (· < bound)

/-- A whole number of 64 bits. -/
def word64? (d : Document) (c : Content) : Option UInt64 := (word? UInt64.size d c).map UInt64.ofNat

/-- A whole number of 32 bits. -/
def word32? (d : Document) (c : Content) : Option UInt32 := (word? UInt32.size d c).map UInt32.ofNat

/-- The number that a text stands for, read in double precision and then rounded; infinity and
not-a-number are written with a leading point. -/
def decimal? (text : String) : Option Float32 :=
  if [".inf", ".Inf", ".INF", "+.inf", "+.Inf", "+.INF"].contains text then some (1 / 0)
  else if ["-.inf", "-.Inf", "-.INF"].contains text then some (-1 / 0)
  else if [".nan", ".NaN", ".NAN"].contains text then some (0 / 0)
  else
    match Numeral.ofText? text with
    | some n =>
      if n.isDecimal ∧ n.toDouble.isFinite then some n.toDouble.toFloat32
      else none
    | none => none

/-- A number. -/
def number? (d : Document) (c : Content) : Option Float32 :=
  (typedText? "float" d c).bind decimal?

/-- The truth value that a text stands for. -/
def truth? (text : String) : Option Bool :=
  if ["true", "True", "TRUE"].contains text then some true
  else if ["false", "False", "FALSE"].contains text then some false
  else none

/-- A flag. -/
def flag? (d : Document) (c : Content) : Option Bool := (typedText? "bool" d c).bind truth?

namespace Config

/-- The settings in a document, with defaults for what is left out. -/
def ofDocument? (d : Document) : Option Config := do
  let s := standard
  let top ← fields? d d.root
  let agents ← field top "agents" s.agents (word64? d)
  let ticks ← field top "ticks" s.ticks (word64? d)
  let step ← field top "dt_seconds" s.step (number? d)
  let seed ← field top "seed" s.seed (word64? d)
  let linger ← field top "linger_seconds" s.linger (number? d)
  let pool ← field top "pool" [] (fields? d)
  let maxFree ← field pool "max_free_per_prototype" s.maxFree (word64? d)
  let runner ← field top "runner" [] (fields? d)
  let every ← field runner "think_every_ticks" s.schedule.every (word32? d)
  let offset ← field runner "think_offset_ticks" s.schedule.offset (word32? d)
  let stagger ← field runner "stagger" s.schedule.stagger (flag? d)
  return ⟨agents, ticks, step, seed, linger, maxFree, ⟨every, offset, stagger⟩⟩

/-- The settings in the text of a document. -/
def ofText? (text : String) : Option Config := (Document.ofText? text).bind ofDocument?

/-- The settings as the text of a document. -/
def text (c : Config) : String :=
  "agents: " ++ toString c.agents.toNat ++
  "\nticks: " ++ toString c.ticks.toNat ++
  "\ndt_seconds: " ++ FloatStyle.document.text c.step ++
  "\nseed: " ++ toString c.seed.toNat ++
  "\nlinger_seconds: " ++ FloatStyle.document.text c.linger ++
  "\npool:\n  max_free_per_prototype: " ++ toString c.maxFree.toNat ++
  "\nrunner:\n  think_every_ticks: " ++ toString c.schedule.every.toNat ++
  "\n  think_offset_ticks: " ++ toString c.schedule.offset.toNat ++
  "\n  stagger: " ++ toString c.schedule.stagger ++ "\n"

end Config

end Simulation

end BehaviorTree
