import BehaviorTree.Proofs.Guard.Instance
import BehaviorTree.Proofs.Runner.Places
import BehaviorTree.Simulation.Run

/-!
# Spawning guards

A simulation can spawn all its guards, whatever its settings (`enlisted_start`). Each guard gets an
instance of its own, for which the pool hands out one node for each node of the prototype.
-/

namespace BehaviorTree

namespace Simulation

/-- The ids of agents below a count, ascending. -/
def idsBelow (count : Nat) : List UInt64 := (List.range count).map UInt64.ofNat

private theorem lt_of_mem_idsBelow {count : Nat} (hc : count < UInt64.size) {id : UInt64}
    (h : id ∈ idsBelow count) : id < .ofNat count := by
  obtain ⟨k, hk, rfl⟩ := List.mem_map.mp h
  have hlt := List.mem_range.mp hk
  rw [UInt64.lt_iff_toNat_lt, UInt64.toNat_ofNat_of_lt' (Nat.lt_trans hlt hc),
    UInt64.toNat_ofNat_of_lt' hc]
  exact hlt

/-- The ids below a count are those less than it. -/
theorem mem_idsBelow {id count : UInt64} : id ∈ idsBelow count.toNat ↔ id < count := by
  constructor
  · intro h
    have hlt := lt_of_mem_idsBelow count.toNat_lt h
    rwa [UInt64.ofNat_toNat] at hlt
  · intro h
    exact List.mem_map.mpr ⟨id.toNat, List.mem_range.mpr h, UInt64.ofNat_toNat⟩

/-- A runner with the ids below a count has that many agents. -/
theorem length_agents {runner : Runner Owner Leaf} {count : Nat}
    (h : runner.ids = idsBelow count) : runner.agents.length = count := by
  have hlength := congrArg List.length h
  rwa [Runner.ids, List.length_map, idsBelow, List.length_map, List.length_range] at hlength

/-- Whether an agent was just spawned: with an instance of its own and an empty blackboard. -/
structure Recruit (c : Config) (a : Agent Owner Leaf) : Prop where
  schedule : a.schedule = c.schedule.forAgent a.id
  tree : Guard.Posted a.tree
  scope : ∃ i, a.scope = .empty i

/-- The identifiers of the nodes of some guards. -/
def nodesOf (count : Nat) : List NodeId := (List.replicate count Guard.nodeIds).flatten

private theorem nodesOf_succ (count : Nat) :
    nodesOf (count + 1) = nodesOf count ++ Guard.nodeIds := by
  rw [nodesOf, List.replicate_succ', List.flatten_append, List.flatten_singleton, nodesOf]

/-- What comes of spawning some guards. -/
structure Enlisted (c : Config) (count : Nat) (pool : Pool Leaf) (runner : Runner Owner Leaf)
    (host : Host Leaf World) : Prop where
  schedule : runner.schedule = c.schedule
  ids : runner.ids = idsBelow count
  recruits : ∀ a ∈ runner.agents, Recruit c a
  keyed : host.pool.Keyed
  drawn : pool.Drawn host.pool (nodesOf count)
  accounts : pool.Accounts host.pool

variable {c : Config} {prototype : Tree Owner Leaf} {pool : Pool Leaf}
  {runner : Runner Owner Leaf} {host : Host Leaf World} {count : Nat}

/-- After some guards the next one can be spawned, behind all others. -/
theorem Enlisted.spawn (hp : Guard.prototype 1 c.linger = .ok prototype)
    (h : Enlisted c count pool runner host) (hn : count < UInt64.size) :
    ∃ runner' host', runner.spawn Leaf.behavior (.ofNat count) prototype
        (guardOwner (.ofNat count)) host = (.ok runner', host') ∧
      Enlisted c (count + 1) pool runner' host' := by
  obtain ⟨t, pool', hcopy, hposted, hkeyed, hdrawn, haccounts⟩ :=
    Guard.instantiate_prototype hp h.keyed (UInt64.ofNat count).toNat (.ofNat count)
  have hlast : ∀ b ∈ runner.agents, b.id < .ofNat count := by
    intro b hb
    apply lt_of_mem_idsBelow hn
    rw [← h.ids]
    exact List.mem_map_of_mem hb
  let agent : Agent Owner Leaf :=
    ⟨.ofNat count, runner.schedule.forAgent (.ofNat count), t, .empty host.fresh, none⟩
  have hplaced : Runner.insertAgent agent runner.agents = (none, runner.agents ++ [agent]) :=
    Runner.insertAgent_of_lt hlast
  simp only [Runner.spawn, guardOwner, hcopy]
  rw [show Runner.insertAgent ⟨_, _, t, _, none⟩ runner.agents = _ from hplaced]
  refine ⟨_, _, rfl, h.schedule, ?_, ?_, hkeyed, ?_, h.accounts.trans haccounts⟩
  · rw [Runner.ids, List.map_append, ← Runner.ids, h.ids, idsBelow, idsBelow, List.range_succ,
      List.map_append]
    rfl
  · intro a ha
    rcases List.mem_append.mp ha with ha | ha
    · exact h.recruits a ha
    · obtain rfl := List.mem_singleton.mp ha
      refine ⟨?_, hposted, host.fresh, rfl⟩
      rw [← h.schedule]
  · rw [nodesOf_succ]
    exact h.drawn.append hdrawn

/-- Spawning succeeds for as many guards as there are ids. -/
theorem enlisted_spawnBelow (hp : Guard.prototype 1 c.linger = .ok prototype)
    (hk : host.pool.Keyed) (hn : count ≤ UInt64.size) :
    ∃ runner host', spawnBelow prototype count (.empty c.schedule) host = .ok (runner, host') ∧
      Enlisted c count host.pool runner host' := by
  induction count with
  | zero => exact ⟨_, host, rfl, rfl, rfl, by rintro a ⟨⟩, hk, .nil _, .refl _⟩
  | succ count ih =>
    obtain ⟨runner, host', hspawned, henlisted⟩ := ih (by omega)
    obtain ⟨runner', host'', hnext, hall⟩ := henlisted.spawn hp (by omega)
    refine ⟨runner', host'', ?_, hall⟩
    simp only [spawnBelow, hspawned, hnext]

/-- The pool of a simulation before any guard is spawned. -/
def stockpile (c : Config) : Pool Leaf :=
  (Pool.empty c.maxFree.toNat).prewarm (Guard.root 1 c.linger) c.agents.toNat

/-- A simulation can be begun, whatever its settings. -/
theorem enlisted_start (c : Config) : ∃ s, start c = .ok s ∧
    s.clock = ⟨0, c.step⟩ ∧ s.totals = .zero ∧
      Enlisted c c.agents.toNat (stockpile c) s.runner s.host := by
  have hk : (⟨⟨.initial, ⟨0⟩⟩, stockpile c⟩ : Host Leaf World).pool.Keyed :=
    (Pool.keyed_empty c.maxFree.toNat).prewarm _ _
  have hp := Guard.prototype_eq c.linger
  obtain ⟨runner, host, hspawned, henlisted⟩ :=
    enlisted_spawnBelow hp hk (Nat.le_of_lt c.agents.toNat_lt)
  rw [stockpile] at hspawned
  simp only [start, hp, hspawned]
  exact ⟨_, rfl, rfl, rfl, henlisted⟩

end Simulation

end BehaviorTree
