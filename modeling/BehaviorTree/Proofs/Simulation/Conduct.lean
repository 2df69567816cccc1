import BehaviorTree.Proofs.Simulation.Shots

/-!
# The conduct of guards

No guard of a simulation ever fails, and none leaves anything of a patrol on its own blackboard: it
answers running or success to each think, and has no keys but the clock's, the threat's and the
shots' (`run_never_fails`).
-/

namespace BehaviorTree

variable {ο σ ω : Type}

/-! ### Counting answers -/

/-- Whether a summary counts answers but no failure, of some turns. -/
structure Summary.Unfailing (turns : Nat) (s : Summary) : Prop where
  failure : s.failure = 0
  answers : s.running + s.success = s.ticked
  turns : s.ticked + s.skipped = turns

private theorem Summary.Unfailing.add {turns turns' : Nat} {s s' : Summary} (h : s.Unfailing turns)
    (h' : s'.Unfailing turns') : (s + s').Unfailing (turns + turns') where
  failure := by
    show s.failure + s'.failure = 0
    rw [h.failure, h'.failure]
  answers := by
    show s.running + s'.running + (s.success + s'.success) = s.ticked + s'.ticked
    rw [← h.answers, ← h'.answers]
    omega
  turns := by
    show s.ticked + s'.ticked + (s.skipped + s'.skipped) = _
    rw [← h.turns, ← h'.turns]
    omega

private theorem Summary.unfailing_ofStatus {status : Status} (h : status ≠ .failure) :
    (ofStatus status).Unfailing 1 := by
  cases status with
  | failure => exact absurd rfl h
  | running => exact ⟨rfl, rfl, rfl⟩
  | success => exact ⟨rfl, rfl, rfl⟩

/-- A tick after which no agent has failed last counts no failure, and each agent once. -/
theorem Runner.unfailing_tickAgents {B : Behavior ο σ ω} {clock : Clock} {agents : List (Agent ο σ)}
    {outside : Outside ω}
    (h : ∀ a ∈ (tickAgents B clock agents outside).agents, a.tree.lastStatus ≠ some .failure) :
    (tickAgents B clock agents outside).summary.Unfailing agents.length := by
  induction agents generalizing outside with
  | nil => exact ⟨rfl, rfl, rfl⟩
  | cons a rest ih =>
    rw [List.length_cons, Nat.add_comm]
    by_cases hdue : a.schedule.isDue clock.tick
    · simp only [tickAgents, hdue, if_true] at h ⊢
      refine (Summary.unfailing_ofStatus ?_).add (ih fun b hb ↦ h b (List.mem_cons_of_mem _ hb))
      intro hfailed
      exact h _ List.mem_cons_self (congrArg some hfailed)
    · simp only [tickAgents, hdue] at h ⊢
      exact .add ⟨rfl, rfl, rfl⟩ (ih fun b hb ↦ h b (List.mem_cons_of_mem _ hb))

namespace Simulation

/-! ### A guard's own blackboard -/

/-- The keys of a guard's own blackboard: the clock's, the threat's and the shots'. -/
def ownKeys : List String := [Clock.tickKey, Clock.deltaKey, Engage.threatKey, Engage.shotsKey]

/-- Whether entries have none but those keys. -/
def OwnOnly (e : Entries) : Prop := ∀ key ∈ e, key ∈ ownKeys

private theorem ownOnly_empty : OwnOnly ∅ := fun _ h ↦ absurd h Std.ExtTreeMap.not_mem_empty

private theorem OwnOnly.insert {e : Entries} (h : OwnOnly e) {key : String} (hk : key ∈ ownKeys)
    (v : Value) : OwnOnly (e.insert key v) := by
  intro other hother
  rcases Std.ExtTreeMap.mem_insert.mp hother with heq | hother
  · rwa [← Std.LawfulEqCmp.compare_eq_iff_eq.mp heq]
  · exact h other hother

variable {c : Config} {id : UInt64} {tick : Nat} {a : Agent Owner Leaf} {clock : Clock}

private theorem OwnOnly.shown (h : OwnOnly a.scope.entries) (seed tick : UInt64) :
    OwnOnly (shown seed tick a).scope.entries := h.insert (by decide) _

private theorem OwnOnly.thinkingBoard (h : OwnOnly a.scope.entries) (seed : UInt64)
    (clock : Clock) : OwnOnly (thinkingBoard seed clock a).entries :=
  ((h.shown seed clock.tick).insert (by decide) _).insert (by decide) _

/-! ### A guard's turn -/

/-- Whether an agent did not fail last, and has no keys on its blackboard but its own. -/
structure WellBehaved (a : Agent Owner Leaf) : Prop where
  status : a.tree.lastStatus ≠ some .failure
  own : OwnOnly a.scope.entries

private theorem WellBehaved.shown (h : WellBehaved a) (seed tick : UInt64) :
    WellBehaved (Simulation.shown seed tick a) := ⟨h.status, h.own.shown seed tick⟩

/-- A guard that thinks does not fail, and writes no more than the number of its shots. -/
theorem OnDuty.think (h : OnDuty c id tick a) (hc : clock.tick = .ofNat tick)
    (outside : Outside World) :
    let t := Agent.think Leaf.behavior (shown c.seed clock.tick a) clock outside
    t.status ≠ .failure ∧ (t.agent.board = thinkingBoard c.seed clock a ∨
      ∃ shots, t.agent.board = (thinkingBoard c.seed clock a).setInt Engage.shotsKey shots) := by
  intro t
  have hthreat := threatened_thinkingBoard c.seed clock a
  rw [h.isSeen_eq hc] at hthreat
  cases hs : c.sees id tick with
  | true =>
    rw [hs] at hthreat
    have hshots := (getInt_thinkingBoard c.seed clock a).trans h.shots
    obtain ⟨hstatus, -, hboard⟩ := h.poised.run_of_threat
      { outside with board := thinkingBoard c.seed clock a } hthreat hshots
    refine ⟨?_, .inr ⟨_, congrArg (fun b : Blackboard ↦ b.scope.alone) hboard⟩⟩
    show t.status ≠ _
    rw [show t.status = _ from hstatus]
    split <;> decide
  | false =>
    rw [hs] at hthreat
    obtain ⟨-, hboard, hstatus⟩ := h.poised.run_of_clear
      { outside with board := thinkingBoard c.seed clock a } hthreat
    refine ⟨hstatus ?_, .inl (congrArg (fun b : Blackboard ↦ b.scope.alone) hboard)⟩
    exact Clock.isShown_publish _ _

/-- A guard answers running or success when it thinks, and stays well behaved. -/
theorem OnDuty.behaves (h : OnDuty c id tick a) (hw : WellBehaved a)
    (hc : clock.tick = .ofNat tick) (outside : Outside World) :
    let a' := ((Simulation.shown c.seed clock.tick a).attend Leaf.behavior (Agent.due clock)
      outside).1
    WellBehaved a' ∧ (c.thinks id tick = true →
      a'.tree.lastStatus = some .running ∨ a'.tree.lastStatus = some .success) := by
  have hdue : (Simulation.shown c.seed clock.tick a).schedule.isDue clock.tick =
      c.thinks id tick := by
    rw [Config.thinks, ← h.schedule, hc]
    rfl
  unfold Agent.attend Agent.due
  rw [hdue]
  cases ht : c.thinks id tick with
  | false => exact ⟨hw.shown _ _, by rintro ⟨⟩⟩
  | true =>
    obtain ⟨hstatus, hboard⟩ := h.think hc outside
    let t := Agent.think Leaf.behavior (Simulation.shown c.seed clock.tick a) clock outside
    have hown : OwnOnly t.agent.board.entries := by
      rcases hboard with hboard | ⟨shots, hboard⟩
      · rw [hboard]
        exact hw.own.thinkingBoard c.seed clock
      · rw [hboard]
        exact (hw.own.thinkingBoard c.seed clock).insert (by decide) _
    refine ⟨⟨fun hs ↦ hstatus (Option.some.inj hs), hown⟩, fun _ ↦ ?_⟩
    show some t.status = _ ∨ some t.status = _
    cases hanswer : t.status with
    | running => exact .inl rfl
    | success => exact .inr rfl
    | failure => exact absurd hanswer hstatus

/-- A guard that is stopped stays well behaved. -/
theorem OnDuty.behaves_stop (h : OnDuty c id tick a) (hw : WellBehaved a)
    (outside : Outside World) : WellBehaved (a.attend Leaf.behavior Agent.halt outside).1 := by
  refine ⟨hw.status, ?_⟩
  have hboard := h.poised.board_abort { outside with board := a.board }
  show OwnOnly (a.tree.root.abort Leaf.behavior { outside with board := a.board }).2.board.entries
  rw [hboard]
  exact hw.own

/-! ### A whole simulation -/

/-- Whether all agents are on duty before a tick and well behaved, and no failure was counted. -/
structure Orderly (c : Config) (tick : Nat) (s : State) : Prop where
  manned : Manned c tick s
  behaved : ∀ a ∈ s.runner.agents, WellBehaved a
  totals : s.totals.Unfailing (c.agents.toNat * tick)

private theorem Recruit.wellBehaved (h : Recruit c a) : WellBehaved a := by
  obtain ⟨i, hscope⟩ := h.scope
  constructor
  · rw [h.tree.lastStatus]
    rintro ⟨⟩
  · rw [hscope]
    exact ownOnly_empty

/-- A simulation can be begun. -/
theorem orderly_start (c : Config) : ∃ s, start c = .ok s ∧ Orderly c 0 s := by
  obtain ⟨s, hstart, hclock, htotals, henlisted⟩ := enlisted_start c
  refine ⟨s, hstart, henlisted.manned (by rw [hclock]),
    fun a ha ↦ (henlisted.recruits a ha).wellBehaved, ?_⟩
  rw [htotals]
  exact ⟨rfl, rfl, rfl⟩

variable {s : State}

/-- A tick keeps all agents well behaved, and counts each of them without a failure. -/
theorem Orderly.step (h : Orderly c tick s) : Orderly c (tick + 1) (s.step c.seed) := by
  have hbehaved : ∀ a ∈ (s.step c.seed).runner.agents, WellBehaved a := by
    intro a' ha'
    obtain ⟨a, ha, turn, rfl⟩ := mem_agents_step ha'
    exact ((h.manned.duty a ha).behaves (h.behaved a ha) h.manned.clock turn).1
  have hround := Runner.unfailing_tickAgents (B := Leaf.behavior) fun a ha ↦ (hbehaved a ha).status
  refine ⟨h.manned.step, hbehaved, ?_⟩
  have hlength : (showThreats c.seed s.clock.tick s.runner).agents.length = c.agents.toNat := by
    rw [showThreats, List.length_map, length_agents h.manned.ids]
  rw [hlength] at hround
  exact h.totals.add hround

private theorem Orderly.steps (h : Orderly c 0 s) (tick : Nat) :
    Orderly c tick (s.steps c.seed tick) := by
  induction tick with
  | zero => exact h
  | succ tick ih =>
    rw [steps_succ]
    exact ih.step

/-- The runners that a simulation goes through once its guards are spawned: between two ticks; amid
a tick, when the threats were shown and some agents have had their turn; and at the end, when all
agents were stopped and some of them despawned. -/
inductive Passes (c : Config) (s : State) : Runner Owner Leaf → Prop where
  | between {tick : Nat} (h : tick ≤ c.ticks.toNat) : Passes c s (s.steps c.seed tick).runner
  | amid {tick : Nat} (h : tick < c.ticks.toNat) {t : State} (ht : t = s.steps c.seed tick)
      {before after : List (Agent Owner Leaf)}
      (hagents : (showThreats c.seed t.clock.tick t.runner).agents = before ++ after) :
      Passes c s ⟨t.runner.schedule,
        (Runner.tickAgents Leaf.behavior t.clock before t.host.toOutside).agents ++ after⟩
  | ended {t : State} (ht : t = s.steps c.seed c.ticks.toNat)
      {stopped : Runner Owner Leaf × Host Leaf World}
      (hstopped : t.runner.stopAll Leaf.behavior t.host = stopped) (ids : List UInt64) :
      Passes c s (despawnAll ids stopped.1 stopped.2).1

private theorem mem_despawnAll {ids : List UInt64} {runner : Runner Owner Leaf}
    {host : Host Leaf World} (h : a ∈ (despawnAll ids runner host).1.agents) :
    a ∈ runner.agents := by
  induction ids generalizing runner host with
  | nil => exact h
  | cons id rest ih =>
    have hrest : a ∈ (Runner.eraseAgent id runner.agents).2 := ih h
    obtain ⟨before, after, hagents, hleft, -⟩ := Runner.eraseAgent_cases id runner.agents
    rw [hleft] at hrest
    rw [hagents]
    rcases List.mem_append.mp hrest with hrest | hrest
    · exact List.mem_append_left _ hrest
    · exact List.mem_append_right _ (List.mem_append_right _ hrest)

/-- All agents are well behaved, whatever a simulation is at. -/
theorem Orderly.passes (h : Orderly c 0 s) {runner : Runner Owner Leaf} (hp : Passes c s runner) :
    ∀ a ∈ runner.agents, WellBehaved a := by
  cases hp with
  | between => exact (h.steps _).behaved
  | @amid tick _ t ht before after hagents =>
    subst ht
    have htick := h.steps tick
    generalize s.steps c.seed tick = t at htick hagents ⊢
    have hshown : ∀ b ∈ before ++ after,
        ∃ a ∈ t.runner.agents, b = shown c.seed t.clock.tick a := by
      intro b hb
      rw [← hagents] at hb
      obtain ⟨a, ha, rfl⟩ := List.mem_map.mp hb
      exact ⟨a, ha, rfl⟩
    intro b hb
    rcases List.mem_append.mp hb with hb | hb
    · rw [show (Runner.tickAgents Leaf.behavior t.clock before t.host.toOutside).agents = _ from
        congrArg Prod.fst (Runner.tickAgents_eq Leaf.behavior t.clock before _)] at hb
      obtain ⟨b', hb', turn, rfl⟩ := Agent.mem_attendEach hb
      obtain ⟨a, ha, rfl⟩ := hshown b' (List.mem_append_left _ hb')
      exact ((htick.manned.duty a ha).behaves (htick.behaved a ha) htick.manned.clock turn).1
    · obtain ⟨a, ha, rfl⟩ := hshown b (List.mem_append_right _ hb)
      exact (htick.behaved a ha).shown _ _
  | ended ht hstopped ids =>
    subst ht hstopped
    have hlast := h.steps c.ticks.toNat
    intro a' ha'
    have hstopped := mem_despawnAll ha'
    rw [show (Runner.stopAll Leaf.behavior _ _).1.agents = _ from
      congrArg Prod.fst (Runner.stopAgents_eq Leaf.behavior _ _)] at hstopped
    obtain ⟨a, ha, turn, rfl⟩ := Agent.mem_attendEach hstopped
    exact (hlast.manned.duty a ha).behaves_stop (hlast.behaved a ha) turn

/-- No guard ever fails: a simulation can be run, each guard answers running or success whenever it
thinks, and the totals say so. Nor does a guard leave anything of a patrol on its own blackboard:
whatever the simulation is at, there are no keys but the clock's, the threat's and the shots'. -/
theorem run_never_fails (c : Config) :
    ∃ s report, start c = .ok s ∧ run c = .ok report ∧
      (report.totals.failure = 0 ∧
        report.totals.running + report.totals.success = report.totals.ticked ∧
        report.totals.ticked + report.totals.skipped = c.agents.toNat * c.ticks.toNat) ∧
      (∀ id < c.agents, ∀ tick < c.ticks.toNat, c.thinks id tick = true →
        ∃ a, (s.steps c.seed (tick + 1)).runner.find? id = some a ∧
          (a.tree.lastStatus = some .running ∨ a.tree.lastStatus = some .success)) ∧
      ∀ runner, Passes c s runner → ∀ a ∈ runner.agents,
        a.tree.lastStatus ≠ some .failure ∧
          ∀ key ∈ a.scope.entries,
            key ∈ [Clock.tickKey, Clock.deltaKey, Engage.threatKey, Engage.shotsKey] := by
  obtain ⟨s, hstart, h⟩ := orderly_start c
  have htotals := (h.steps c.ticks.toNat).totals
  refine ⟨s, (s.steps c.seed c.ticks.toNat).finish c, hstart, ?_,
    ⟨htotals.failure, htotals.answers, htotals.turns⟩, fun id hid tick _ ht ↦ ?_,
    fun runner hp a ha ↦ ?_⟩
  · rw [run, hstart]
    rfl
  · have htick := h.steps tick
    obtain ⟨a, hfound, hduty⟩ := htick.manned.find? hid
    obtain ⟨turn, hnext⟩ := find?_step hfound
    have hbehaved := htick.behaved a (List.mem_of_find?_eq_some hfound)
    rw [steps_succ]
    exact ⟨_, hnext, (hduty.behaves hbehaved htick.manned.clock turn).2 ht⟩
  · obtain ⟨hstatus, hown⟩ := h.passes hp a ha
    exact ⟨hstatus, hown⟩

end Simulation

end BehaviorTree
