import BehaviorTree.Proofs.Runner.Places
import BehaviorTree.Simulation.Run

/-!
# Steps of a simulation

A step shows each agent whether there is a threat, and then lets each have its turn. It changes
neither which agents there are nor the pool.
-/

namespace BehaviorTree

namespace Simulation

/-- An agent that is shown whether there is a threat. -/
def shown (seed tick : UInt64) (a : Agent Owner Leaf) : Agent Owner Leaf :=
  a.mapEntries (·.insert Engage.threatKey (.bool (Threat.isSeen seed a.id tick)))

private theorem agents_step (seed : UInt64) (s : State) :
    (s.step seed).runner.agents = (Agent.attendEach Leaf.behavior (Agent.due s.clock)
      (s.runner.agents.map (shown seed s.clock.tick)) s.host.toOutside).1 := by
  rw [← Runner.tickAgents_eq]
  rfl

/-- A step of a simulation leaves the ids. -/
theorem ids_step (seed : UInt64) (s : State) : (s.step seed).runner.ids = s.runner.ids := by
  rw [Runner.ids, agents_step, Agent.ids_attendEach, List.map_map]
  rfl

/-- In a step each agent has its turn. -/
theorem mem_agents_step {seed : UInt64} {s : State} {a' : Agent Owner Leaf}
    (h : a' ∈ (s.step seed).runner.agents) :
    ∃ a ∈ s.runner.agents, ∃ turn,
      a' = ((shown seed s.clock.tick a).attend Leaf.behavior (Agent.due s.clock) turn).1 := by
  rw [agents_step] at h
  obtain ⟨b, hb, turn, rfl⟩ := Agent.mem_attendEach h
  obtain ⟨a, ha, rfl⟩ := List.mem_map.mp hb
  exact ⟨a, ha, turn, rfl⟩

/-- In a step the agent of an id has its turn. -/
theorem find?_step {seed : UInt64} {s : State} {id : UInt64} {a : Agent Owner Leaf}
    (h : s.runner.find? id = some a) :
    ∃ turn, (s.step seed).runner.find? id =
      some ((shown seed s.clock.tick a).attend Leaf.behavior (Agent.due s.clock) turn).1 := by
  have hshown : (s.runner.agents.map (shown seed s.clock.tick)).find? (·.id == id) =
      some (shown seed s.clock.tick a) := by
    rw [List.find?_map]
    exact congrArg (Option.map _) h
  rw [Runner.find?, agents_step]
  exact Agent.find?_attendEach Leaf.behavior (Agent.due s.clock) hshown s.host.toOutside

/-- A step of a simulation leaves the pool. -/
theorem pool_step (seed : UInt64) (s : State) : (s.step seed).host.pool = s.host.pool := rfl

/-- The last of several steps can be taken by itself. -/
theorem steps_succ (seed : UInt64) (count : Nat) (s : State) :
    s.steps seed (count + 1) = (s.steps seed count).step seed := by
  induction count generalizing s with
  | zero => rfl
  | succ count ih => exact ih (s.step seed)

end Simulation

end BehaviorTree
