import BehaviorTree.Simulation.CommandLine

/-!
# The program

Reads the files that the command line names, carries it out, and prints what it comes to.
-/

open BehaviorTree Simulation

/-- Reads the file that the options name, if it can be read. -/
def readNamed (args : List String) : IO (Option String) := do
  match (Arguments.ofList? args).bind (·.options.config) with
  | none => return none
  | some path =>
    try
      return some (← IO.FS.readFile path)
    catch _ =>
      return none

/-- Runs the program. -/
def main (args : List String) : IO UInt32 := do
  let file ← readNamed args
  let outcome := execute args fun _ => file
  match outcome.text? with
  | some text =>
    IO.print text
    return 0
  | none =>
    match outcome with
    | .failed message =>
      IO.eprintln ("Error: " ++ message)
      return 1
    | _ =>
      IO.eprintln "error: invalid arguments"
      return 2
