import BehaviorTree.Simulation.Arguments
import BehaviorTree.Simulation.ConfigText
import BehaviorTree.Simulation.Report

/-!
# The command line

The settings are read from a file, if one is named, and checked; then the options override them,
and they are checked again. The command prints the settings or runs the simulation.
-/

namespace BehaviorTree

namespace Simulation

/-- What the command line comes to. -/
inductive Outcome where
  /-- The settings in use. -/
  | config (c : Config)
  /-- A report, for reading or as a document. -/
  | report (r : Report) (json : Bool)
  /-- The settings or the simulation were refused. -/
  | failed (message : String)
  /-- The arguments were not understood. -/
  | usage

/-- The settings after the options. -/
def Options.apply (o : Options) (c : Config) : Config where
  agents := o.agents.getD c.agents
  ticks := o.ticks.getD c.ticks
  step := o.step.getD c.step
  seed := o.seed.getD c.seed
  linger := c.linger
  maxFree := c.maxFree
  schedule :=
    match o.thinkEvery with
    | some every => { c.schedule with every, stagger := true }
    | Option.none => c.schedule

/-- The settings of a file, checked. -/
def load (path : String) (file : Option String) : Except String Config :=
  match file with
  | none => .error ("Failed to read config from " ++ path)
  | some text =>
    match Config.ofText? text with
    | none => .error ("Failed to parse config from " ++ path)
    | some c => (c.validate.map fun _ => c).mapError ConfigError.message

/-- The settings that the options ask for; `file` looks up the text of a file. -/
def resolve (o : Options) (file : String → Option String) : Except String Config := do
  let c ← match o.config with
    | some path => load path (file path)
    | none => .ok .standard
  let c := o.apply c
  (c.validate.map fun _ => c).mapError ConfigError.message

/-- Carries out a command line. -/
def execute (args : List String) (file : String → Option String) : Outcome :=
  match Arguments.ofList? args with
  | none => .usage
  | some a =>
    match resolve a.options file with
    | .error message => .failed message
    | .ok c =>
      match a.command with
      | some .config => .config c
      | _ =>
        match run c with
        | .error e => .failed e.message
        | .ok r => .report r a.options.json

/-- What is printed on success. -/
def Outcome.text? : Outcome → Option String
  | .config c => some c.text
  | .report r true => some r.json
  | .report r false => some r.text
  | _ => none

end Simulation

end BehaviorTree
