import BehaviorTree.Proofs.Simulation.Spawning
import BehaviorTree.Proofs.Simulation.Steps
import BehaviorTree.Proofs.Tree.Prototype

/-!
# The books of a simulation's pool

While a simulation is running its pool is not touched (`Equipped.steps`). At the end every guard
hands back the nodes that it got at the beginning, so the pool's counters follow from the number of
guards and the pool's bound alone (`run_balances_pool`).
-/

namespace BehaviorTree

variable {ο σ ω : Type}

/-! ### Keeping nodes and giving them back -/

/-- Serving an agent leaves its nodes. -/
theorem Agent.nodes_attend (B : Behavior ο σ ω)
    (ask : Agent ο σ → Option (Request × Option UInt64)) (a : Agent ο σ) (outside : Outside ω) :
    (a.attend B ask outside).1.tree.root.ids = a.tree.root.ids := by
  unfold attend
  cases ask a with
  | none => rfl
  | some q => exact (Tree.serve_kept a.tree q.1 _).1

/-- A retired agent hands back all its nodes. -/
theorem Agent.refilled_retire (B : Behavior ο σ ω) (a : Agent ο σ) (host : Host σ ω) :
    let host' := a.retire B host
    host.pool.Refilled host'.pool a.tree.root.ids ∧ host.pool.Accounts host'.pool ∧
      host'.pool.stats.hits = host.pool.stats.hits := by
  have hids : (a.stop B host.toOutside).1.tree.root.ids = a.tree.root.ids :=
    (Tree.serve_kept a.tree .stop _).1
  have hrefilled := host.pool.refilled_release (a.stop B host.toOutside).1.tree.root
  rw [hids] at hrefilled
  exact ⟨hrefilled, host.pool.accounts_release _⟩

namespace Runner

/-- Agents that are retired one after the other hand back all their nodes. -/
theorem refilled_retireAll (B : Behavior ο σ ω) (agents : List (Agent ο σ)) (host : Host σ ω) :
    let host' := retireAll B agents host
    host.pool.Refilled host'.pool (agents.flatMap fun a ↦ a.tree.root.ids) ∧
      host.pool.Accounts host'.pool ∧ host'.pool.stats.hits = host.pool.stats.hits := by
  induction agents generalizing host with
  | nil => exact ⟨.nil _, .refl _, rfl⟩
  | cons a rest ih =>
    obtain ⟨hrefilled, haccounts, hhits⟩ := a.refilled_retire B host
    obtain ⟨hrest, haccounts', hhits'⟩ := ih (a.retire B host)
    rw [List.flatMap_cons]
    exact ⟨hrefilled.append hrest, haccounts.trans haccounts', hhits'.trans hhits⟩

end Runner

namespace Simulation

/-- Despawning all agents in order retires each of them. -/
theorem despawnAll_ids (runner : Runner Owner Leaf) (host : Host Leaf World) :
    despawnAll runner.ids runner host =
      ({ runner with agents := [] }, Runner.retireAll Leaf.behavior runner.agents host) := by
  obtain ⟨schedule, agents⟩ := runner
  induction agents generalizing host with
  | nil => rfl
  | cons a rest ih =>
    have htaken : Runner.eraseAgent a.id (a :: rest) = (some a, rest) := if_pos rfl
    show despawnAll (Runner.ids ⟨schedule, rest⟩)
      (Runner.despawn Leaf.behavior ⟨schedule, a :: rest⟩ a.id host).2.1
      (Runner.despawn Leaf.behavior ⟨schedule, a :: rest⟩ a.id host).2.2 = _
    simp only [Runner.despawn, htaken]
    exact ih _

/-! ### A whole simulation -/

/-- Whether each guard of a simulation has the nodes that it got, and the pool is as it was after
these were handed out. -/
structure Equipped (c : Config) (pool : Pool Leaf) (s : State) : Prop where
  ids : s.runner.ids = idsBelow c.agents.toNat
  nodes : ∀ a ∈ s.runner.agents, a.tree.root.ids = Guard.nodeIds
  pool : s.host.pool = pool

variable {c : Config} {pool : Pool Leaf} {s : State}

private theorem Equipped.step (h : Equipped c pool s) : Equipped c pool (s.step c.seed) where
  ids := (ids_step c.seed s).trans h.ids
  nodes := by
    intro a' ha'
    obtain ⟨a, ha, turn, rfl⟩ := mem_agents_step ha'
    rw [Agent.nodes_attend]
    exact h.nodes a ha
  pool := (pool_step c.seed s).trans h.pool

private theorem Equipped.steps (h : Equipped c pool s) (count : Nat) :
    Equipped c pool (s.steps c.seed count) := by
  induction count with
  | zero => exact h
  | succ count ih =>
    rw [steps_succ]
    exact ih.step

private theorem Equipped.stopAll (h : Equipped c pool s) :
    let stopped := s.runner.stopAll Leaf.behavior s.host
    Equipped c pool { s with runner := stopped.1, host := stopped.2 } := by
  have hagents : (s.runner.stopAll Leaf.behavior s.host).1.agents =
      (Agent.attendEach Leaf.behavior Agent.halt s.runner.agents s.host.toOutside).1 := by
    rw [← Runner.stopAgents_eq]
    rfl
  refine ⟨?_, ?_, h.pool⟩
  · show (s.runner.stopAll Leaf.behavior s.host).1.agents.map (·.id) = _
    rw [hagents, Agent.ids_attendEach]
    exact h.ids
  · show ∀ a ∈ (s.runner.stopAll Leaf.behavior s.host).1.agents, _
    intro a' ha'
    rw [hagents] at ha'
    obtain ⟨a, ha, turn, rfl⟩ := Agent.mem_attendEach ha'
    rw [Agent.nodes_attend]
    exact h.nodes a ha

/-- All nodes come back when all agents are despawned. -/
theorem Equipped.despawnAll (h : Equipped c pool s) :
    let q := (despawnAll s.runner.ids s.runner s.host).2.pool
    pool.Refilled q (nodesOf c.agents.toNat) ∧ pool.Accounts q ∧
      q.stats.hits = pool.stats.hits := by
  have hnodes : (s.runner.agents.flatMap fun a ↦ a.tree.root.ids) = nodesOf c.agents.toNat := by
    rw [List.flatMap_def, List.map_congr_left h.nodes, List.map_const', length_agents h.ids,
      nodesOf]
  have hback := Runner.refilled_retireAll Leaf.behavior s.runner.agents s.host
  rw [hnodes, h.pool] at hback
  rw [despawnAll_ids]
  exact hback

/-- At the end all nodes come back. -/
theorem Equipped.finish (h : Equipped c pool s) :
    ∃ q : Pool Leaf, (s.finish c).pool = q.stats ∧ pool.Refilled q (nodesOf c.agents.toNat) ∧
      pool.Accounts q ∧ q.stats.hits = pool.stats.hits := by
  have hdone := h.stopAll.despawnAll
  rw [h.stopAll.ids, ← h.ids] at hdone
  exact ⟨_, rfl, hdone⟩

/-- The pool's counters at the end of a simulation of six-node guards: the pool serves as many
guards from its stacks as its bound allows, makes new nodes for the others, keeps as many of the
nodes that come back, and drops the others. This is so whatever the other settings. -/
theorem run_balances_pool (c : Config) :
    let kept := min c.agents.toNat c.maxFree.toNat
    ∃ s report, start c = .ok s ∧ s.runner.ids = idsBelow c.agents.toNat ∧ run c = .ok report ∧
      report.pool =
        { hits := 6 * kept
          misses := 6 * (c.agents.toNat - kept)
          released := 6 * kept
          dropped := 6 * (c.agents.toNat - kept) } := by
  intro kept
  obtain ⟨s, hstart, -, -, h⟩ := enlisted_start c
  have hequipped : Equipped c s.host.pool s :=
    ⟨h.ids, fun a ha ↦ (h.recruits a ha).tree.ids, rfl⟩
  obtain ⟨q, hq, hrefilled, haccounts, hhits⟩ := (hequipped.steps c.ticks.toNat).finish
  refine ⟨s, (s.steps c.seed c.ticks.toNat).finish c, hstart, h.ids, ?_, ?_⟩
  · rw [run, hstart]
    rfl
  · have hstocked : (Pool.empty c.maxFree.toNat).Stocked c.agents.toNat (stockpile c)
        Guard.nodeIds := Pool.stocked_prewarm _ (Guard.root 1 c.linger) _
    rw [hq]
    exact Pool.stats_of_cycle Guard.nodup_nodeIds hstocked h.drawn h.accounts hrefilled haccounts
      hhits

end Simulation

end BehaviorTree
