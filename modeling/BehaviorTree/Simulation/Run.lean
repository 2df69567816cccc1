import BehaviorTree.Guard.Prototype
import BehaviorTree.Guard.Threat
import BehaviorTree.Runner.Basic
import BehaviorTree.Simulation.Config

/-!
# Running simulations

A simulation spawns a crowd of guards from one prototype, ticks them on a fixed step, and counts
what they did. The pool is filled beforehand, and everything is handed back at the end.
-/

namespace BehaviorTree

namespace Simulation

/-- What a simulation counted. -/
structure Report where
  agents : UInt64
  ticks : UInt64
  totals : Summary
  pool : PoolStats
  shots : Int64
  distance : Float32

/-- Why a simulation cannot be run. -/
inductive RunError where
  | prototype (source : TreeError)
  | spawn (agent : Nat) (source : CloneError)

/-- The error in words. -/
def RunError.message : RunError → String
  | .prototype _ => "Failed to build guard tree"
  | .spawn agent _ => "Failed to spawn agent " ++ toString agent

/-- A simulation in progress: the runner of the guards, and the pool and the world they share. -/
structure State where
  runner : Runner Owner Leaf
  host : Host Leaf World
  clock : Clock
  totals : Summary

/-- The owner of a guard's tree: each guard is an owner of its own. -/
def guardOwner (id : UInt64) : Owner := ⟨id.toNat, .guard (.ofId id)⟩

/-- Spawns the guards with ids below a count, in ascending order. -/
def spawnBelow (prototype : Tree Owner Leaf) :
    Nat → Runner Owner Leaf → Host Leaf World →
      Except RunError (Runner Owner Leaf × Host Leaf World)
  | 0, runner, host => .ok (runner, host)
  | count + 1, runner, host =>
    match spawnBelow prototype count runner host with
    | .error e => .error e
    | .ok (runner, host) =>
      let id := UInt64.ofNat count
      match runner.spawn Leaf.behavior id prototype (guardOwner id) host with
      | (.ok runner, host) => .ok (runner, host)
      | (.error e, _) => .error (.spawn count e)

/-- Lets each guard see whether there is a threat. -/
def showThreats (seed tick : UInt64) (runner : Runner Owner Leaf) : Runner Owner Leaf :=
  { runner with
    agents := runner.agents.map fun a =>
      a.mapEntries (·.insert Engage.threatKey (.bool (Threat.isSeen seed a.id tick))) }

/-- One tick of the simulation. -/
def State.step (seed : UInt64) (s : State) : State :=
  let runner := showThreats seed s.clock.tick s.runner
  let t := runner.tick Leaf.behavior s.clock s.host
  ⟨t.2.1, t.2.2, s.clock.next, s.totals + t.1⟩

/-- Several ticks of the simulation. -/
def State.steps (seed : UInt64) : Nat → State → State
  | 0, s => s
  | count + 1, s => steps seed count (s.step seed)

/-- The shots that an agent has fired. -/
def shotsOf (a : Agent Owner Leaf) : Int64 :=
  match a.board.getInt Engage.shotsKey 0 with
  | .ok shots => shots
  | .error _ => 0

/-- The distance that an agent has walked, if there is a patrol in its tree. -/
def distanceOf (a : Agent Owner Leaf) : Option Float32 :=
  (a.tree.nodes.findSome? fun n => n.leaf?.bind Leaf.patrol?).map (·.walked)

/-- Despawns agents one after the other. -/
def despawnAll (ids : List UInt64) (runner : Runner Owner Leaf) (host : Host Leaf World) :
    Runner Owner Leaf × Host Leaf World :=
  ids.foldl (fun s id => (s.1.despawn Leaf.behavior id s.2).2) (runner, host)

/-- The simulation before its first tick. -/
def start (c : Config) : Except RunError State :=
  match Guard.prototype 1 c.linger with
  | .error e => .error (.prototype e)
  | .ok prototype =>
    let pool := (Pool.empty c.maxFree.toNat).prewarm prototype.root c.agents.toNat
    match spawnBelow prototype c.agents.toNat (.empty c.schedule) ⟨⟨.initial, ⟨0⟩⟩, pool⟩ with
    | .error e => .error e
    | .ok (runner, host) => .ok ⟨runner, host, ⟨0, c.step⟩, .zero⟩

/-- The report of a simulation after its last tick. Distances are added in the order of the ids;
the sum of none is the negative zero, which changes no other number. -/
def State.finish (c : Config) (s : State) : Report :=
  let agents := s.runner.agents
  let stopped := s.runner.stopAll Leaf.behavior s.host
  let done := despawnAll s.runner.ids stopped.1 stopped.2
  { agents := c.agents
    ticks := c.ticks
    totals := s.totals
    pool := done.2.pool.stats
    shots := (agents.map shotsOf).foldl (· + ·) 0
    distance := (agents.filterMap distanceOf).foldl (· + ·) (-0.0) }

/-- Runs a simulation. -/
def run (c : Config) : Except RunError Report :=
  (start c).map fun s => (s.steps c.seed c.ticks.toNat).finish c

end Simulation

end BehaviorTree
