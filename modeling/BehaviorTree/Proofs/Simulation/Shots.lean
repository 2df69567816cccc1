import BehaviorTree.Proofs.Simulation.Duty
import BehaviorTree.Proofs.Simulation.Spawning
import Mathlib.Algebra.BigOperators.Group.Finset.Piecewise
import Mathlib.Algebra.BigOperators.Group.Finset.Sigma

/-!
# Shots of a simulation

A simulation can always be run. All its agents are on duty before every tick (`Manned.steps`), so
the shots that it reports are the thinks with a threat in sight (`run_fires_once_per_alarm`).
-/

namespace BehaviorTree

namespace Simulation

variable {c : Config}

/-- An agent that was just spawned is on duty. -/
theorem Recruit.onDuty {a : Agent Owner Leaf} (h : Recruit c a) : OnDuty c a.id 0 a where
  id_eq := rfl
  schedule := h.schedule
  poised := h.tree.poised
  shots := by
    obtain ⟨i, hscope⟩ := h.scope
    have hnone : a.board.value? Engage.shotsKey = none := by
      simp [Agent.board, hscope, Blackboard.value?, Blackboard.scopes, Scope.alone, Scope.empty,
        nearest?]
    rw [Blackboard.getInt, Blackboard.readD, Blackboard.read, hnone]
    rfl

/-! ### Running -/

/-- Whether all agents of a simulation are on duty before a tick. -/
structure Manned (c : Config) (tick : Nat) (s : State) : Prop where
  ids : s.runner.ids = idsBelow c.agents.toNat
  clock : s.clock.tick = .ofNat tick
  duty : ∀ a ∈ s.runner.agents, OnDuty c a.id tick a

/-- Agents that were just spawned are on duty. -/
theorem Enlisted.manned {pool : Pool Leaf} {s : State}
    (h : Enlisted c c.agents.toNat pool s.runner s.host) (hc : s.clock.tick = 0) :
    Manned c 0 s where
  ids := h.ids
  clock := hc
  duty a ha := (h.recruits a ha).onDuty

/-- A simulation can be begun. -/
theorem manned_start (c : Config) : ∃ s, start c = .ok s ∧ Manned c 0 s := by
  obtain ⟨s, hstart, hclock, -, henlisted⟩ := enlisted_start c
  exact ⟨s, hstart, henlisted.manned (by rw [hclock])⟩

private theorem next_tick {clock : Clock} {tick : Nat} (h : clock.tick = .ofNat tick) :
    clock.next.tick = .ofNat (tick + 1) := by
  rw [Clock.next, h, UInt64.ofNat_add]
  rfl

/-- A tick keeps all agents on duty. -/
theorem Manned.step {tick : Nat} {s : State} (h : Manned c tick s) :
    Manned c (tick + 1) (s.step c.seed) where
  ids := (ids_step c.seed s).trans h.ids
  clock := next_tick h.clock
  duty := by
    intro a' ha'
    obtain ⟨a, ha, turn, rfl⟩ := mem_agents_step ha'
    rw [Agent.id_attend]
    exact ((h.duty a ha).attend h.clock turn).1

/-- There is an agent of each id, on duty. -/
theorem Manned.find? {tick : Nat} {s : State} (h : Manned c tick s) {id : UInt64}
    (hid : id < c.agents) : ∃ a, s.runner.find? id = some a ∧ OnDuty c id tick a := by
  have hmem : id ∈ s.runner.agents.map (·.id) := by
    rw [← Runner.ids, h.ids]
    exact mem_idsBelow.mpr hid
  obtain ⟨b, hb, hbid⟩ := List.mem_map.mp hmem
  cases hf : s.runner.find? id with
  | none =>
    have hnone := List.find?_eq_none.mp hf b hb
    exact absurd (beq_iff_eq.mpr hbid) hnone
  | some a =>
    have haid : a.id = id := by simpa using List.find?_some hf
    exact ⟨a, rfl, haid ▸ h.duty a (List.mem_of_find?_eq_some hf)⟩

/-- On a tick each agent responds to what it sees. -/
theorem Manned.responds {tick : Nat} {s : State} (h : Manned c tick s) {id : UInt64}
    (hid : id < c.agents) :
    ∃ a a', s.runner.find? id = some a ∧ (s.step c.seed).runner.find? id = some a' ∧
      Responds c id tick a a' := by
  obtain ⟨a, hfound, hduty⟩ := h.find? hid
  obtain ⟨turn, hnext⟩ := find?_step hfound
  exact ⟨a, _, hfound, hnext, (hduty.attend h.clock turn).2⟩

/-- All agents are on duty before every tick. -/
theorem Manned.steps {s : State} (h : Manned c 0 s) (tick : Nat) :
    Manned c tick (s.steps c.seed tick) := by
  induction tick with
  | zero => exact h
  | succ tick ih =>
    rw [steps_succ]
    exact ih.step

/-! ### Counting -/

/-- How many pairs of an agent and a tick there are such that the agent thinks on the tick with a
threat in sight. -/
def Config.alarms (c : Config) : Nat :=
  ((Finset.range c.agents.toNat ×ˢ Finset.range c.ticks.toNat).filter fun p ↦
    c.alarmed (.ofNat p.1) p.2).card

private theorem alarms_eq_sum (c : Config) :
    c.alarms = ∑ k ∈ Finset.range c.agents.toNat, c.shots (.ofNat k) c.ticks.toNat := by
  rw [Config.alarms, Finset.card_filter, Finset.sum_product]
  refine Finset.sum_congr rfl fun k _ ↦ ?_
  rw [Config.shots, Nat.count_eq_card_filter_range, Finset.card_filter]

/-- Words that come from natural numbers are added as these are. -/
theorem foldl_ofNat (f : Nat → Nat) (n : Nat) :
    ((List.range n).map fun k ↦ Int64.ofNat (f k)).foldl (· + ·) 0 =
      .ofNat (∑ k ∈ Finset.range n, f k) := by
  induction n with
  | zero => rfl
  | succ n ih =>
    rw [List.range_succ, List.map_append, List.foldl_append, ih, Finset.sum_range_succ,
      Int64.ofNat_add]
    rfl

/-- The shots in the report are the thinks with a threat in sight. -/
theorem Manned.shots_finish {s : State} (h : Manned c c.ticks.toNat s) :
    (s.finish c).shots = .ofNat c.alarms := by
  have hshots : s.runner.agents.map shotsOf =
      (List.range c.agents.toNat).map fun k ↦ Int64.ofNat (c.shots (.ofNat k) c.ticks.toNat) := by
    calc s.runner.agents.map shotsOf
      _ = s.runner.agents.map fun a ↦ Int64.ofNat (c.shots a.id c.ticks.toNat) :=
        List.map_congr_left fun a ha ↦ shotsOf_eq (h.duty a ha).shots
      _ = s.runner.ids.map fun id ↦ Int64.ofNat (c.shots id c.ticks.toNat) := by
        rw [Runner.ids, List.map_map]
        rfl
      _ = _ := by
        rw [h.ids, idsBelow, List.map_map]
        rfl
  rw [State.finish, hshots, foldl_ofNat, alarms_eq_sum]

/-- Every guard fires once for each think with a threat in sight: a simulation can be run, and the
shots that it reports are as many as these thinks, if a word can count them. On each tick each agent
responds to what it sees, whatever it was doing before. -/
theorem run_fires_once_per_alarm (c : Config) (h : c.alarms < 2 ^ 63) :
    ∃ s report, start c = .ok s ∧ run c = .ok report ∧ report.shots.toInt = c.alarms ∧
      ∀ id < c.agents, ∀ tick < c.ticks.toNat,
        ∃ a a', (s.steps c.seed tick).runner.find? id = some a ∧
          (s.steps c.seed (tick + 1)).runner.find? id = some a' ∧ Responds c id tick a a' := by
  obtain ⟨s, hstart, hmanned⟩ := manned_start c
  refine ⟨s, (s.steps c.seed c.ticks.toNat).finish c, hstart, ?_, ?_, fun id hid tick _ ↦ ?_⟩
  · rw [run, hstart]
    rfl
  · rw [(hmanned.steps _).shots_finish, Int64.toInt_ofNat_of_lt h]
  · rw [steps_succ]
    exact (hmanned.steps tick).responds hid

/-- Two guards that think on every other tick in turn, for six ticks. The first one sees a threat
all the time and completes a burst with its third think, on the fifth tick; the second one sees
none. -/
theorem run_fires_once_per_alarm_pair :
    let c : Config := { Config.standard with agents := 2, ticks := 6, schedule := ⟨2, 0, true⟩ }
    c.alarms < 2 ^ 63 ∧ ∃ s report, start c = .ok s ∧ run c = .ok report ∧
      report.shots.toInt = 3 ∧ ∃ a a', (s.steps c.seed 4).runner.find? 0 = some a ∧
        (s.steps c.seed 5).runner.find? 0 = some a' ∧ shotsOf a' = shotsOf a + 1 ∧
        a'.tree.lastStatus = some .success := by
  intro c
  have halarms : c.alarms = 3 := by decide +kernel
  have hlt : c.alarms < 2 ^ 63 := by
    rw [halarms]
    decide
  obtain ⟨s, report, hstart, hrun, hshots, hagents⟩ := run_fires_once_per_alarm c hlt
  obtain ⟨a, a', ha, ha', hresponds⟩ := hagents 0 (by decide) 4 (by decide)
  have hthird : 3 ∣ c.streak 0 5 := by decide +kernel
  obtain ⟨hone, hstatus⟩ := hresponds.alarmed (by decide +kernel) (by decide +kernel)
  rw [if_pos hthird] at hstatus
  rw [halarms] at hshots
  exact ⟨hlt, s, report, hstart, hrun, hshots, a, a', ha, ha', hone, hstatus⟩

end Simulation

end BehaviorTree
