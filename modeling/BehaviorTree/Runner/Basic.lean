import BehaviorTree.Runner.Schedule
import BehaviorTree.Tree.Instance

/-!
# Runners

A runner drives many instances, one for each agent, in ascending order of the agents' ids. On a
tick it advances the agents that are due; an agent that thinks less often than every tick is told
the time since it last thought.
-/

namespace BehaviorTree

variable {ο σ ω : Type}

/-- An agent: its instance, its blackboard, and when it thinks. -/
structure Agent (ο σ : Type) where
  id : UInt64
  schedule : Schedule
  tree : Tree ο σ
  scope : Scope
  /-- The tick on which the agent last thought. -/
  lastThink : Option UInt64

/-- How many agents thought in a tick or not, and with which answers. -/
structure Summary where
  ticked : Nat
  skipped : Nat
  running : Nat
  success : Nat
  failure : Nat
  deriving DecidableEq, Repr

namespace Summary

/-- Nothing happened. -/
def zero : Summary := ⟨0, 0, 0, 0, 0⟩

/-- Counts of several ticks together. -/
def add (a b : Summary) : Summary :=
  ⟨a.ticked + b.ticked, a.skipped + b.skipped, a.running + b.running, a.success + b.success,
    a.failure + b.failure⟩

instance : Add Summary := ⟨add⟩

/-- One agent that did not think. -/
def ofSkip : Summary := ⟨0, 1, 0, 0, 0⟩

/-- One agent that thought, with its answer. -/
def ofStatus : Status → Summary
  | .running => ⟨1, 0, 1, 0, 0⟩
  | .success => ⟨1, 0, 0, 1, 0⟩
  | .failure => ⟨1, 0, 0, 0, 1⟩

end Summary

/-- What comes of an agent's thinking. -/
structure Thought (ο σ ω : Type) where
  status : Status
  agent : Agent ο σ
  outside : Outside ω

/-- What comes of a tick of several agents. -/
structure Round (ο σ ω : Type) where
  summary : Summary
  agents : List (Agent ο σ)
  outside : Outside ω

/-- A set of agents with a common schedule, in ascending order of their ids. -/
structure Runner (ο σ : Type) where
  schedule : Schedule
  agents : List (Agent ο σ)

namespace Agent

/-- The blackboard of the agent: a scope of its own with nothing around it. -/
def board (a : Agent ο σ) : Blackboard := a.scope.alone

/-- The agent with other entries on its blackboard. -/
def mapEntries (a : Agent ο σ) (f : Entries → Entries) : Agent ο σ :=
  { a with scope := { a.scope with entries := f a.scope.entries } }

/-- How many ticks have passed since the agent last thought; at least one. -/
def elapsed (a : Agent ο σ) (tick : UInt64) : UInt64 :=
  match a.lastThink with
  | none => 1
  | some last => UInt64.ofNat (max (tick.toNat - last.toNat) 1)

/-- Lets the agent think: it sees the time since it last did. -/
def think (B : Behavior ο σ ω) (a : Agent ο σ) (clock : Clock) (outside : Outside ω) :
    Thought ο σ ω :=
  let seconds := clock.seconds * (a.elapsed clock.tick).toFloat32
  let r := a.tree.tickWith B { clock with seconds } { outside with board := a.board }
  ⟨r.status, { a with tree := r.tree, scope := r.env.board.scope, lastThink := some clock.tick },
    r.env.toOutside⟩

/-- Aborts what the agent is running. -/
def stop (B : Behavior ο σ ω) (a : Agent ο σ) (outside : Outside ω) : Agent ο σ × Outside ω :=
  let r := a.tree.stop B { outside with board := a.board }
  ({ a with tree := r.1, scope := r.2.board.scope }, r.2.toOutside)

/-- Stops the agent and hands its nodes back to the pool. -/
def retire (B : Behavior ο σ ω) (a : Agent ο σ) (host : Host σ ω) : Host σ ω :=
  let r := a.stop B host.toOutside
  { r.2 with pool := r.1.tree.release host.pool }

end Agent

namespace Runner

/-- A runner without agents. -/
def empty (schedule : Schedule) : Runner ο σ := ⟨schedule, []⟩

/-- The number of agents. -/
def size (r : Runner ο σ) : Nat := r.agents.length

/-- The ids of the agents, ascending. -/
def ids (r : Runner ο σ) : List UInt64 := r.agents.map (·.id)

/-- The agent of an id. -/
def find? (r : Runner ο σ) (id : UInt64) : Option (Agent ο σ) := r.agents.find? (·.id == id)

/-- Puts an agent in its place; the agent that had its id is handed out. -/
def insertAgent (a : Agent ο σ) : List (Agent ο σ) → Option (Agent ο σ) × List (Agent ο σ)
  | [] => (none, [a])
  | b :: rest =>
    if a.id < b.id then (none, a :: b :: rest)
    else if a.id = b.id then (some b, a :: rest)
    else
      let r := insertAgent a rest
      (r.1, b :: r.2)

/-- Takes out the agent of an id. -/
def eraseAgent (id : UInt64) : List (Agent ο σ) → Option (Agent ο σ) × List (Agent ο σ)
  | [] => (none, [])
  | b :: rest =>
    if b.id = id then (some b, rest)
    else
      let r := eraseAgent id rest
      (r.1, b :: r.2)

/-- Retires agents one after the other. -/
def retireAll (B : Behavior ο σ ω) (agents : List (Agent ο σ)) (host : Host σ ω) : Host σ ω :=
  agents.foldl (fun host a => a.retire B host) host

/-- Instantiates a prototype for an agent. An agent of the same id is retired after the new
instance was made; when none can be made, nothing changes for the agents. -/
def spawn (B : Behavior ο σ ω) (r : Runner ο σ) (id : UInt64) (prototype : Tree ο σ) (owner : ο)
    (host : Host σ ω) : Except CloneError (Runner ο σ) × Host σ ω :=
  match prototype.instantiate B owner host with
  | (.error e, host) => (.error e, host)
  | (.ok tree, host) =>
    let agent := ⟨id, r.schedule.forAgent id, tree, .empty host.fresh, none⟩
    let host := { host with fresh := host.fresh.next }
    let placed := insertAgent agent r.agents
    (.ok { r with agents := placed.2 }, retireAll B placed.1.toList host)

/-- Retires an agent; says whether there was one. -/
def despawn (B : Behavior ο σ ω) (r : Runner ο σ) (id : UInt64) (host : Host σ ω) :
    Bool × Runner ο σ × Host σ ω :=
  let taken := eraseAgent id r.agents
  (taken.1.isSome, { r with agents := taken.2 }, retireAll B taken.1.toList host)

/-- Lets every agent that is due think, one after the other. -/
def tickAgents (B : Behavior ο σ ω) (clock : Clock) :
    List (Agent ο σ) → Outside ω → Round ο σ ω
  | [], outside => ⟨.zero, [], outside⟩
  | a :: rest, outside =>
    if a.schedule.isDue clock.tick then
      let t := a.think B clock outside
      let r := tickAgents B clock rest t.outside
      ⟨.ofStatus t.status + r.summary, t.agent :: r.agents, r.outside⟩
    else
      let r := tickAgents B clock rest outside
      ⟨.ofSkip + r.summary, a :: r.agents, r.outside⟩

/-- Lets every agent that is due think. -/
def tick (B : Behavior ο σ ω) (r : Runner ο σ) (clock : Clock) (host : Host σ ω) :
    Summary × Runner ο σ × Host σ ω :=
  let round := tickAgents B clock r.agents host.toOutside
  (round.summary, { r with agents := round.agents }, { host with toOutside := round.outside })

/-- Stops agents one after the other. -/
def stopAgents (B : Behavior ο σ ω) :
    List (Agent ο σ) → Outside ω → List (Agent ο σ) × Outside ω
  | [], outside => ([], outside)
  | a :: rest, outside =>
    let s := a.stop B outside
    let r := stopAgents B rest s.2
    (s.1 :: r.1, r.2)

/-- Aborts what any agent is running. -/
def stopAll (B : Behavior ο σ ω) (r : Runner ο σ) (host : Host σ ω) : Runner ο σ × Host σ ω :=
  let s := stopAgents B r.agents host.toOutside
  ({ r with agents := s.1 }, { host with toOutside := s.2 })

/-- Retires every agent. -/
def retireEveryone (B : Behavior ο σ ω) (r : Runner ο σ) (host : Host σ ω) : Host σ ω :=
  retireAll B r.agents host

/-- Changes the entries of an agent's blackboard, if there is an agent of that id. -/
def mapEntries (r : Runner ο σ) (id : UInt64) (f : Entries → Entries) : Runner ο σ :=
  { r with agents := r.agents.map fun a => if a.id = id then a.mapEntries f else a }

/-- The last answer of an agent. -/
def lastStatus? (r : Runner ο σ) (id : UInt64) : Option Status :=
  (r.find? id).bind (·.tree.lastStatus)

end Runner

end BehaviorTree
