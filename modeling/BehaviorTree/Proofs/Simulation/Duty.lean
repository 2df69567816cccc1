import BehaviorTree.Proofs.Guard.Instance
import BehaviorTree.Proofs.Scope.Reading
import BehaviorTree.Proofs.Simulation.Steps
import Mathlib.Data.Nat.Count

/-!
# Guards on duty

On each tick of a simulation a guard either thinks or does not, and sees a threat or does not. Its
tree and its shots follow from that alone (`OnDuty.attend`): each think with a threat fires one
shot, each third such think in a row completes a burst, and nothing else fires.
-/

namespace BehaviorTree

namespace Simulation

namespace Config

/-- Whether an agent thinks on a tick. -/
def thinks (c : Config) (id : UInt64) (tick : Nat) : Bool :=
  (c.schedule.forAgent id).isDue (.ofNat tick)

/-- Whether an agent is shown a threat on a tick. -/
def sees (c : Config) (id : UInt64) (tick : Nat) : Bool := Threat.isSeen c.seed id (.ofNat tick)

/-- Whether an agent thinks on a tick with a threat in sight. -/
def alarmed (c : Config) (id : UInt64) (tick : Nat) : Bool := c.thinks id tick && c.sees id tick

/-- How many thinks in a row, up to the last one before a tick, had a threat in sight. -/
def streak (c : Config) (id : UInt64) (tick : Nat) : Nat :=
  (((List.range tick).filter (c.thinks id)).reverse.takeWhile (c.sees id)).length

/-- How many of an agent's thinks before a tick had a threat in sight. -/
def shots (c : Config) (id : UInt64) (tick : Nat) : Nat := Nat.count (c.alarmed id ·) tick

variable {c : Config} {id : UInt64} {tick : Nat}

private theorem streak_succ_of_alarmed (ht : c.thinks id tick = true) (hs : c.sees id tick = true) :
    c.streak id (tick + 1) = c.streak id tick + 1 := by
  simp [streak, List.range_succ, ht, hs]

private theorem streak_succ_of_clear (ht : c.thinks id tick = true) (hs : c.sees id tick = false) :
    c.streak id (tick + 1) = 0 := by
  simp [streak, List.range_succ, ht, hs]

private theorem streak_succ_of_skipped (ht : c.thinks id tick = false) :
    c.streak id (tick + 1) = c.streak id tick := by
  simp [streak, List.range_succ, ht]

private theorem shots_succ_of_alarmed (ht : c.thinks id tick = true) (hs : c.sees id tick = true) :
    c.shots id (tick + 1) = c.shots id tick + 1 := by
  simp [shots, Nat.count_succ, alarmed, ht, hs]

private theorem shots_succ_of_clear (hs : c.sees id tick = false) :
    c.shots id (tick + 1) = c.shots id tick := by
  simp [shots, Nat.count_succ, alarmed, hs]

private theorem shots_succ_of_skipped (ht : c.thinks id tick = false) :
    c.shots id (tick + 1) = c.shots id tick := by
  simp [shots, Nat.count_succ, alarmed, ht]

end Config

/-- What an agent of a simulation is before a tick. -/
structure OnDuty (c : Config) (id : UInt64) (tick : Nat) (a : Agent Owner Leaf) : Prop where
  id_eq : a.id = id
  schedule : a.schedule = c.schedule.forAgent id
  poised : Guard.Poised (c.streak id tick % 3) a.tree.root
  shots : a.board.getInt Engage.shotsKey 0 = .ok (.ofNat (c.shots id tick))

/-- What a tick makes of an agent. It is shown whether there is a threat; a think with a threat in
sight fires one shot and answers success with each third in a row, else running; and nothing else
fires. -/
structure Responds (c : Config) (id : UInt64) (tick : Nat) (a a' : Agent Owner Leaf) : Prop where
  flag : Engage.threatened a'.board = .ok (c.sees id tick)
  alarmed : c.thinks id tick = true → c.sees id tick = true →
    shotsOf a' = shotsOf a + 1 ∧
      a'.tree.lastStatus = some (if 3 ∣ c.streak id (tick + 1) then .success else .running)
  clear : c.thinks id tick = true → c.sees id tick = false → shotsOf a' = shotsOf a
  skipped : c.thinks id tick = false → shotsOf a' = shotsOf a ∧ a'.tree = a.tree

/-- The shots of an agent are those that can be read from its blackboard. -/
theorem shotsOf_eq {a : Agent Owner Leaf} {shots : Int64}
    (h : a.board.getInt Engage.shotsKey 0 = .ok shots) : shotsOf a = shots := by
  rw [shotsOf, h]

private theorem threatened_shown (seed tick : UInt64) (a : Agent Owner Leaf) :
    Engage.threatened (shown seed tick a).board = .ok (Threat.isSeen seed a.id tick) :=
  Blackboard.getBool_setBool a.board Engage.threatKey _ false

private theorem getInt_shown (seed tick : UInt64) (a : Agent Owner Leaf) :
    (shown seed tick a).board.getInt Engage.shotsKey 0 = a.board.getInt Engage.shotsKey 0 :=
  Blackboard.readD_set_of_ne (by decide) a.board _ .int 0

/-- The blackboard on which an agent thinks that was shown whether there is a threat. -/
def thinkingBoard (seed : UInt64) (clock : Clock) (a : Agent Owner Leaf) : Blackboard :=
  (Agent.clock (shown seed clock.tick a) clock).publish (shown seed clock.tick a).board

/-- An agent that thinks sees a threat exactly when one is drawn for its id and the tick. -/
theorem threatened_thinkingBoard (seed : UInt64) (clock : Clock) (a : Agent Owner Leaf) :
    Engage.threatened (thinkingBoard seed clock a) = .ok (Threat.isSeen seed a.id clock.tick) := by
  rw [Engage.threatened, Blackboard.getBool, thinkingBoard,
    Clock.readD_publish _ _ (by decide) (by decide)]
  exact threatened_shown seed clock.tick a

/-- An agent that thinks reads the shots that its own scope has. -/
theorem getInt_thinkingBoard (seed : UInt64) (clock : Clock) (a : Agent Owner Leaf) :
    (thinkingBoard seed clock a).getInt Engage.shotsKey 0 = a.board.getInt Engage.shotsKey 0 := by
  rw [Blackboard.getInt, thinkingBoard, Clock.readD_publish _ _ (by decide) (by decide)]
  exact getInt_shown seed clock.tick a

namespace OnDuty

variable {c : Config} {id : UInt64} {tick : Nat} {a : Agent Owner Leaf} {clock : Clock}

/-- An agent on duty sees a threat exactly when the configuration says so. -/
theorem isSeen_eq (h : OnDuty c id tick a) (hc : clock.tick = .ofNat tick) :
    Threat.isSeen c.seed a.id clock.tick = c.sees id tick := by
  rw [h.id_eq, hc, Config.sees]

/-- An agent that does not think is only shown whether there is a threat. -/
theorem skip (h : OnDuty c id tick a) (ht : c.thinks id tick = false)
    (hc : clock.tick = .ofNat tick) :
    let a' := shown c.seed clock.tick a
    OnDuty c id (tick + 1) a' ∧ Responds c id tick a a' := by
  have hflag := threatened_shown c.seed clock.tick a
  have hshots := (getInt_shown c.seed clock.tick a).trans h.shots
  rw [h.isSeen_eq hc] at hflag
  constructor
  · refine ⟨h.id_eq, h.schedule, ?_, ?_⟩
    · rw [Config.streak_succ_of_skipped ht]
      exact h.poised
    · rw [Config.shots_succ_of_skipped ht]
      exact hshots
  · refine ⟨hflag, ?_, ?_, fun _ ↦ ⟨?_, rfl⟩⟩
    · simp [ht]
    · simp [ht]
    · rw [shotsOf_eq hshots, shotsOf_eq h.shots]

/-- A think with a threat in sight fires a shot, and the third in a row completes a burst. -/
theorem fire (h : OnDuty c id tick a) (ht : c.thinks id tick = true) (hs : c.sees id tick = true)
    (hc : clock.tick = .ofNat tick) (outside : Outside World) :
    let a' := (Agent.think Leaf.behavior (shown c.seed clock.tick a) clock outside).agent
    OnDuty c id (tick + 1) a' ∧ Responds c id tick a a' := by
  intro a'
  have hthreat := threatened_thinkingBoard c.seed clock a
  have hbefore := (getInt_thinkingBoard c.seed clock a).trans h.shots
  rw [h.isSeen_eq hc, hs] at hthreat
  obtain ⟨hstatus, hpoised, hboard⟩ := h.poised.run_of_threat
    { outside with board := thinkingBoard c.seed clock a } hthreat hbefore
  have hafter : a'.board = (thinkingBoard c.seed clock a).setInt Engage.shotsKey
      (.ofNat (c.shots id tick) + 1) := congrArg (fun b ↦ b.scope.alone) hboard
  have hflag : Engage.threatened a'.board = .ok true := by
    rw [hafter, ← hthreat]
    exact Blackboard.readD_set_of_ne (by decide) _ _ .bool false
  have hshots : a'.board.getInt Engage.shotsKey 0 = .ok (.ofNat (c.shots id tick) + 1) := by
    rw [hafter]
    exact Blackboard.getInt_setInt _ _ _ _
  constructor
  · refine ⟨h.id_eq, h.schedule, ?_, ?_⟩
    · rw [Config.streak_succ_of_alarmed ht hs, ← Nat.mod_add_mod]
      exact hpoised
    · rw [Config.shots_succ_of_alarmed ht hs, hshots, Int64.ofNat_add]
      rfl
  · refine ⟨hs ▸ hflag, fun _ _ ↦ ⟨?_, ?_⟩, ?_, ?_⟩
    · rw [shotsOf_eq hshots, shotsOf_eq h.shots]
    · have hthird : c.streak id tick % 3 = 2 ↔ 3 ∣ c.streak id tick + 1 := by omega
      rw [Config.streak_succ_of_alarmed ht hs]
      simp only [hthird] at hstatus
      exact congrArg some hstatus
    · simp [hs]
    · simp [ht]

/-- A think without a threat in sight fires nothing. -/
theorem hold (h : OnDuty c id tick a) (ht : c.thinks id tick = true) (hs : c.sees id tick = false)
    (hc : clock.tick = .ofNat tick) (outside : Outside World) :
    let a' := (Agent.think Leaf.behavior (shown c.seed clock.tick a) clock outside).agent
    OnDuty c id (tick + 1) a' ∧ Responds c id tick a a' := by
  intro a'
  have hthreat := threatened_thinkingBoard c.seed clock a
  have hbefore := (getInt_thinkingBoard c.seed clock a).trans h.shots
  rw [h.isSeen_eq hc, hs] at hthreat
  obtain ⟨hpoised, hboard, -⟩ := h.poised.run_of_clear
    { outside with board := thinkingBoard c.seed clock a } hthreat
  have hafter : a'.board = thinkingBoard c.seed clock a := congrArg (fun b ↦ b.scope.alone) hboard
  rw [← hafter] at hthreat hbefore
  constructor
  · refine ⟨h.id_eq, h.schedule, ?_, ?_⟩
    · rw [Config.streak_succ_of_clear ht hs]
      exact hpoised
    · rw [Config.shots_succ_of_clear hs]
      exact hbefore
  · refine ⟨hs ▸ hthreat, ?_, fun _ _ ↦ ?_, ?_⟩
    · simp [hs]
    · rw [shotsOf_eq hbefore, shotsOf_eq h.shots]
    · simp [ht]

/-- A tick keeps an agent on duty, and it responds to what it sees. -/
theorem attend (h : OnDuty c id tick a) (hc : clock.tick = .ofNat tick)
    (outside : Outside World) :
    let a' := ((shown c.seed clock.tick a).attend Leaf.behavior (Agent.due clock) outside).1
    OnDuty c id (tick + 1) a' ∧ Responds c id tick a a' := by
  have hdue : (shown c.seed clock.tick a).schedule.isDue clock.tick = c.thinks id tick := by
    rw [Config.thinks, ← h.schedule, hc]
    rfl
  unfold Agent.attend Agent.due
  rw [hdue]
  cases ht : c.thinks id tick with
  | true =>
    cases hs : c.sees id tick with
    | true => exact h.fire ht hs hc outside
    | false => exact h.hold ht hs hc outside
  | false => exact h.skip ht hc

end OnDuty

end Simulation

end BehaviorTree
