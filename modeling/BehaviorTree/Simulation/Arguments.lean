import BehaviorTree.Decimal.Numeral

/-!
# Command line arguments

Options may stand before or after the word that names the command. An option is given at most
once on either side of this word; when it stands on both sides, the later one counts. A value
follows its option as the next argument or after an equals sign, and only in the second form may
it begin with a dash.
-/

namespace BehaviorTree

namespace Simulation

/-- What the command line asks for. -/
inductive Command where
  | run
  | config
  deriving DecidableEq, Repr

/-- The options of the command line. -/
structure Options where
  config : Option String
  agents : Option UInt64
  ticks : Option UInt64
  step : Option Float32
  seed : Option UInt64
  thinkEvery : Option UInt32
  json : Bool
  logJson : Bool
  verbose : Bool

namespace Options

/-- No option given. -/
def none : Options :=
  ⟨.none, .none, .none, .none, .none, .none, false, false, false⟩

/-- Two groups of options together; the second one counts. -/
def followedBy (a b : Options) : Options where
  config := b.config.or a.config
  agents := b.agents.or a.agents
  ticks := b.ticks.or a.ticks
  step := b.step.or a.step
  seed := b.seed.or a.seed
  thinkEvery := b.thinkEvery.or a.thinkEvery
  json := a.json || b.json
  logJson := a.logJson || b.logJson
  verbose := a.verbose || b.verbose

/-- A whole number of 64 bits; a plus sign may come first. -/
def word64? (s : String) : Option UInt64 :=
  let digits := match s.toList with
    | '+' :: rest => String.ofList rest
    | _ => s
  ((Numeral.natural? digits).filter (· < UInt64.size)).map UInt64.ofNat

/-- A whole number of 32 bits; a sign may come first, also the minus of zero. -/
def word32? (s : String) : Option UInt32 :=
  let (negative, digits) := Numeral.splitSign s.toList
  ((Numeral.natural? (String.ofList digits)).filter fun n =>
    if negative then n = 0 else n < UInt32.size).map UInt32.ofNat

/-- A number in single precision. -/
def number? (s : String) : Option Float32 := (Numeral.ofText? s).map Numeral.toSingle

/-- A path, which is not empty. -/
def path? (s : String) : Option String := if s.isEmpty then .none else some s

/-- Sets an option that was not set before, if its value can be read. -/
def setOnce {α : Type} (old : Option α) (value : Option α) (set : Option α → Options) :
    Option Options :=
  if old.isSome || value.isNone then .none else some (set value)

/-- Gives a value to an option that takes one; `none` when there is no such option, when it was
given before or when it cannot have this value. -/
def setValue? (o : Options) (name value : String) : Option Options :=
  match name with
  | "config" => setOnce o.config (path? value) fun v => { o with config := v }
  | "agents" => setOnce o.agents (word64? value) fun v => { o with agents := v }
  | "ticks" => setOnce o.ticks (word64? value) fun v => { o with ticks := v }
  | "dt" => setOnce o.step (number? value) fun v => { o with step := v }
  | "seed" => setOnce o.seed (word64? value) fun v => { o with seed := v }
  | "think-every" => setOnce o.thinkEvery (word32? value) fun v => { o with thinkEvery := v }
  | _ => .none

/-- Sets an option that takes no value; `none` when there is no such option or when it was given
before. -/
def setFlag? (o : Options) (name : String) : Option Options :=
  match name with
  | "json" => if o.json then .none else some { o with json := true }
  | "log-json" => if o.logJson then .none else some { o with logJson := true }
  | "verbose" => if o.verbose then .none else some { o with verbose := true }
  | _ => .none

/-- Whether an option takes a value. -/
def takesValue (name : String) : Bool :=
  ["config", "agents", "ticks", "dt", "seed", "think-every"].contains name

end Options

/-- The options and the command of a command line. -/
structure Arguments where
  options : Options
  command : Option Command

namespace Arguments

/-- Whether an argument cannot be a value on its own: it begins with a dash and goes on. -/
def isDashed (arg : String) : Bool :=
  match arg.toList with
  | '-' :: _ :: _ => true
  | _ => false

/-- Splits `name=value`. -/
def splitEquals (cs : List Char) : String × Option String :=
  match cs.dropWhile (· != '=') with
  | [] => (String.ofList cs, none)
  | _ :: value => (String.ofList (cs.takeWhile (· != '=')), some (String.ofList value))

/-- What one argument does, given the arguments after it. -/
inductive Reading where
  /-- It sets options, and perhaps takes the next argument with it. -/
  | options (o : Options) (takesNext : Bool)
  /-- It names the command. -/
  | command (c : Command)
  /-- It ends the options. -/
  | ending
  /-- It is not understood. -/
  | refused

/-- Gives an option the value on the spot or the next argument. -/
def withValue (o : Options) (name : String) (value next : Option String) : Reading :=
  match value, next with
  | some v, _ => (o.setValue? name v).elim .refused (.options · false)
  | none, some v =>
    if isDashed v then .refused else (o.setValue? name v).elim .refused (.options · true)
  | none, none => .refused

/-- Reads the letters after a single dash: flags, and at most one option that takes the rest as
its value. -/
def letters (o : Options) (next : Option String) : List Char → Reading
  | [] => .options o false
  | 'v' :: rest =>
    match o.setFlag? "verbose" with
    | some o => letters o next rest
    | none => .refused
  | 'c' :: [] => withValue o "config" none next
  | 'c' :: '=' :: value => withValue o "config" (some (String.ofList value)) next
  | 'c' :: value => withValue o "config" (some (String.ofList value)) next
  | _ => .refused

/-- Reads one argument. -/
def read (o : Options) (next : Option String) (arg : String) : Reading :=
  match arg.toList with
  | ['-', '-'] => .ending
  | '-' :: '-' :: rest =>
    let (name, value) := splitEquals rest
    if Options.takesValue name then withValue o name value next
    else if value.isSome then .refused
    else (o.setFlag? name).elim .refused (.options · false)
  | '-' :: c :: rest => letters o next (c :: rest)
  | _ =>
    if arg = "run" then .command .run
    else if arg = "config" then .command .config
    else .refused

/-- Reads arguments after the options `o` on this side of the command; `before` are the options on
the other side of it. -/
def parse (command : Option Command) (before o : Options) : List String → Option Arguments
  | [] => some ⟨before.followedBy o, command⟩
  | arg :: rest =>
    match read o rest.head? arg with
    | .options o false => parse command before o rest
    | .options o true =>
      match rest with
      | _ :: rest => parse command before o rest
      | [] => none
    | .command c => if command.isSome then none else parse (some c) o .none rest
    | .ending => if rest.isEmpty then some ⟨before.followedBy o, command⟩ else none
    | .refused => none

/-- Reads a command line. -/
def ofList? (args : List String) : Option Arguments := parse none .none .none args

end Arguments

end Simulation

end BehaviorTree
