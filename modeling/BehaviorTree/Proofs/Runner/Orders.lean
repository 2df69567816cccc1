import BehaviorTree.Proofs.Tree.Calls
import BehaviorTree.Runner.Basic

/-!
# Orders to a runner

A squad is a runner with the host on which it works. It is given orders: to spawn agents and dismiss
them, to write to their blackboards, to let them think, and to stop them. When an agent cannot be
spawned, the squad goes on without it.
-/

namespace BehaviorTree

variable {ο σ ω : Type}

/-- A runner, and where its trees are made. -/
structure Squad (ο σ ω : Type) where
  runner : Runner ο σ
  host : Host σ ω

/-- What a runner can be told to do. -/
inductive Order (ο σ : Type) where
  | spawn (id : UInt64) (prototype : Tree ο σ) (owner : ο)
  | despawn (id : UInt64)
  /-- Changes the entries of an agent's blackboard. -/
  | write (id : UInt64) (f : Entries → Entries)
  | tick (clock : Clock)
  | stopAll

/-- Whether an order is to an agent, or to all. -/
def Order.concerns (id : UInt64) : Order ο σ → Bool
  | .spawn k _ _ => k == id
  | .despawn k => k == id
  | .write k _ => k == id
  | .tick _ => true
  | .stopAll => true

namespace Squad

/-- A squad without agents. -/
def start (schedule : Schedule) (host : Host σ ω) : Squad ο σ ω := ⟨.empty schedule, host⟩

/-- Carries out an order. -/
def obey (B : Behavior ο σ ω) (s : Squad ο σ ω) : Order ο σ → Squad ο σ ω
  | .spawn id t owner =>
    match s.runner.spawn B id t owner s.host with
    | (.error _, host) => { s with host }
    | (.ok runner, host) => ⟨runner, host⟩
  | .despawn id => let r := s.runner.despawn B id s.host; ⟨r.2.1, r.2.2⟩
  | .write id f => { s with runner := s.runner.mapEntries id f }
  | .tick clock => let r := s.runner.tick B clock s.host; ⟨r.2.1, r.2.2⟩
  | .stopAll => let r := s.runner.stopAll B s.host; ⟨r.1, r.2⟩

/-- Carries out orders one after the other. -/
def obeyAll (B : Behavior ο σ ω) (s : Squad ο σ ω) (orders : List (Order ο σ)) : Squad ο σ ω :=
  orders.foldl (obey B) s

/-- Retires every agent, as happens when the runner is given up. -/
def dismiss (B : Behavior ο σ ω) (s : Squad ο σ ω) : Squad ο σ ω :=
  ⟨.empty s.runner.schedule, s.runner.retireEveryone B s.host⟩

/-- The squad with other agents, on another host. -/
def withAgents (s : Squad ο σ ω) (agents : List (Agent ο σ)) (host : Host σ ω) : Squad ο σ ω :=
  ⟨⟨s.runner.schedule, agents⟩, host⟩

end Squad

namespace Agent

/-- Asks something of the agent's tree, on the agent's blackboard. -/
def serve (B : Behavior ο σ ω) (a : Agent ο σ) (request : Request) (lastThink : Option UInt64)
    (outside : Outside ω) : Agent ο σ × Outside ω :=
  let r := a.tree.serve B request { outside with board := a.board }
  ({ a with tree := r.tree, scope := r.env.board.scope, lastThink }, r.env.toOutside)

/-- The clock that the agent is told on a tick: the time since it last thought. -/
def clock (a : Agent ο σ) (clock : Clock) : Clock :=
  { clock with seconds := clock.seconds * (a.elapsed clock.tick).toFloat32 }

/-- An agent that thinks has its tree ticked. -/
theorem think_eq (B : Behavior ο σ ω) (a : Agent ο σ) (clock : Clock) (outside : Outside ω) :
    let t := a.think B clock outside
    (t.agent, t.outside) =
      a.serve B (.tickWith (a.clock clock)) (some clock.tick) outside := rfl

/-- An agent that is stopped has its tree stopped. -/
theorem stop_eq (B : Behavior ο σ ω) (a : Agent ο σ) (outside : Outside ω) :
    a.stop B outside = a.serve B .stop a.lastThink outside := rfl

/-- What is asked of an agent on a tick, and when it last thought from then on. -/
def due (clock : Clock) (a : Agent ο σ) : Option (Request × Option UInt64) :=
  if a.schedule.isDue clock.tick then some (.tickWith (a.clock clock), some clock.tick) else none

/-- What is asked of an agent when all are stopped. -/
def halt (a : Agent ο σ) : Option (Request × Option UInt64) := some (.stop, a.lastThink)

/-- Serves an agent, if something is asked of it. -/
def attend (B : Behavior ο σ ω) (ask : Agent ο σ → Option (Request × Option UInt64))
    (a : Agent ο σ) (outside : Outside ω) : Agent ο σ × Outside ω :=
  match ask a with
  | none => (a, outside)
  | some q => a.serve B q.1 q.2 outside

/-- Serves agents one after the other. -/
def attendEach (B : Behavior ο σ ω) (ask : Agent ο σ → Option (Request × Option UInt64)) :
    List (Agent ο σ) → Outside ω → List (Agent ο σ) × Outside ω
  | [], outside => ([], outside)
  | a :: rest, outside =>
    let t := a.attend B ask outside
    let r := attendEach B ask rest t.2
    (t.1 :: r.1, r.2)

/-- Some agents and then others are served as all of them in order. -/
theorem attendEach_append (B : Behavior ο σ ω)
    (ask : Agent ο σ → Option (Request × Option UInt64)) (as bs : List (Agent ο σ))
    (outside : Outside ω) :
    let r := attendEach B ask as outside
    let r' := attendEach B ask bs r.2
    attendEach B ask (as ++ bs) outside = (r.1 ++ r'.1, r'.2) := by
  induction as generalizing outside with
  | nil => rfl
  | cons a as ih =>
    simp only [List.cons_append, attendEach, ih]

end Agent

namespace Runner

variable {a : Agent ο σ} {id : UInt64} {agents : List (Agent ο σ)}

/-- A new agent comes into one place, where it may take the place of one with its id. -/
theorem insertAgent_cases (a : Agent ο σ) (agents : List (Agent ο σ)) :
    let r := insertAgent a agents
    ∃ before after, agents = before ++ (r.1.toList ++ after) ∧ r.2 = before ++ a :: after ∧
      ∀ b ∈ r.1, b.id = a.id := by
  induction agents with
  | nil => exact ⟨[], [], rfl, rfl, by simp [insertAgent]⟩
  | cons b rest ih =>
    simp only [insertAgent]
    by_cases hlt : a.id < b.id
    · simp only [hlt, if_true]
      exact ⟨[], b :: rest, rfl, rfl, by simp⟩
    · by_cases heq : a.id = b.id
      · simp only [heq, if_true]
        rw [if_neg (UInt64.lt_irrefl b.id)]
        exact ⟨[], rest, rfl, rfl, by simp⟩
      · simp only [hlt, heq, if_false]
        obtain ⟨before, after, hrest, hplaced, hid⟩ := ih
        refine ⟨b :: before, after, ?_, ?_, hid⟩
        · exact congrArg (b :: ·) hrest
        · exact congrArg (b :: ·) hplaced

/-- An agent of the id is taken out of its place, if there is one. -/
theorem eraseAgent_cases (id : UInt64) (agents : List (Agent ο σ)) :
    let r := eraseAgent id agents
    ∃ before after, agents = before ++ (r.1.toList ++ after) ∧ r.2 = before ++ after ∧
      ∀ b ∈ r.1, b.id = id := by
  induction agents with
  | nil => exact ⟨[], [], rfl, rfl, by simp [eraseAgent]⟩
  | cons b rest ih =>
    simp only [eraseAgent]
    by_cases hid : b.id = id
    · simp only [hid, if_true]
      exact ⟨[], rest, rfl, rfl, by simp [hid]⟩
    · simp only [hid, if_false]
      obtain ⟨before, after, hrest, htaken, hids⟩ := ih
      refine ⟨b :: before, after, ?_, ?_, hids⟩
      · exact congrArg (b :: ·) hrest
      · exact congrArg (b :: ·) htaken

/-- On a tick the agents that are due are served. -/
theorem tickAgents_eq (B : Behavior ο σ ω) (clock : Clock) (agents : List (Agent ο σ))
    (outside : Outside ω) :
    let r := tickAgents B clock agents outside
    (r.agents, r.outside) = Agent.attendEach B (Agent.due clock) agents outside := by
  induction agents generalizing outside with
  | nil => rfl
  | cons a rest ih =>
    simp only [tickAgents, Agent.attendEach, Agent.attend, Agent.due, ← ih]
    split
    · simp only [← Agent.think_eq]
    · rfl

/-- Stopping agents serves each of them. -/
theorem stopAgents_eq (B : Behavior ο σ ω) (agents : List (Agent ο σ)) (outside : Outside ω) :
    stopAgents B agents outside = Agent.attendEach B Agent.halt agents outside := by
  induction agents generalizing outside with
  | nil => rfl
  | cons a rest ih =>
    simp only [stopAgents, Agent.stop_eq, ih]
    rfl

end Runner

namespace Squad

/-- Serves all agents in order. -/
def attend (B : Behavior ο σ ω) (s : Squad ο σ ω)
    (ask : Agent ο σ → Option (Request × Option UInt64)) : Squad ο σ ω :=
  let r := Agent.attendEach B ask s.runner.agents s.host.toOutside
  s.withAgents r.1 { s.host with toOutside := r.2 }

/-- A tick serves the agents that are due. -/
theorem obey_tick (B : Behavior ο σ ω) (s : Squad ο σ ω) (clock : Clock) :
    s.obey B (.tick clock) = s.attend B (Agent.due clock) := by
  simp only [obey, attend, Runner.tick, ← Runner.tickAgents_eq]
  rfl

/-- Stopping all serves every agent. -/
theorem obey_stopAll (B : Behavior ο σ ω) (s : Squad ο σ ω) :
    s.obey B .stopAll = s.attend B Agent.halt := by
  simp only [obey, attend, Runner.stopAll, Runner.stopAgents_eq]
  rfl

end Squad

end BehaviorTree
