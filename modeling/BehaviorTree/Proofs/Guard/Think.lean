import BehaviorTree.Guard.Prototype
import BehaviorTree.Proofs.Guard.Beat
import BehaviorTree.Proofs.Node.Selector

/-!
# A guard's think

Between two thinks a guard's tree is idle, on patrol, or one or two shots into a burst (`Poised`).
Whatever it is, a think with a threat in sight fires one shot and completes the burst with every
third (`Poised.run_of_threat`), and a think without one fires none and gives up the burst
(`Poised.run_of_clear`).
-/

namespace BehaviorTree

namespace Engage

variable {b : Blackboard} {shots : Int64}

private theorem run_of_threat (e : Engage) (ht : threatened b = .ok true)
    (hs : b.getInt shotsKey 0 = .ok shots) :
    e.run b = .ok (if e.burst ≤ e.fired + 1 then .success else .running,
      { e with fired := e.fired + 1 }, b.setInt shotsKey (shots + 1)) := by
  simp only [run, ht, hs]
  rfl

private theorem run_of_clear (e : Engage) (ht : threatened b = .ok false) :
    e.run b = .ok (.failure, e, b) := by
  simp only [run, ht]
  rfl

end Engage

namespace Guard

open Node

variable {env : Env World} {shots : Int64}

/-! ### The engaging leaf -/

/-- The leaf as it works in a run: it begins to count if it was not started. -/
def engaged (life : Life) (e : Engage) : Engage := if life.started then e else e.start

private theorem run_engage_eq (tag : Tag) (life : Life) (e : Engage) (env : Env World) :
    (leaf tag life (.engage e)).run Leaf.behavior env =
      settle Leaf.behavior ((leaf tag { life with started := true } (.engage (engaged life e))).work
        Leaf.behavior (Node.run Leaf.behavior) env) := by
  obtain ⟨state, started⟩ := life
  rw [run_eq, advance]
  cases started <;> rfl

/-- An engaging leaf has nothing to do when it stops. -/
theorem settle_engage (status : Status) (tag : Tag) (life : Life) (e : Engage) (env : Env World) :
    settle Leaf.behavior ⟨status, leaf tag life (.engage e), env⟩ =
      ⟨status, leaf tag ⟨.ofStatus status, status.isRunning⟩ (.engage e), env⟩ := by
  cases status <;> rfl

/-- With a threat in sight the leaf fires, and comes to an end when the burst is complete. -/
theorem run_engage_of_threat (tag : Tag) (life : Life) (e : Engage)
    (ht : Engage.threatened env.board = .ok true)
    (hs : env.board.getInt Engage.shotsKey 0 = .ok shots) :
    let fired := (engaged life e).fired + 1
    let status := if (engaged life e).burst ≤ fired then .success else .running
    (leaf tag life (.engage e)).run Leaf.behavior env =
      ⟨status, leaf tag ⟨.ofStatus status, status.isRunning⟩
          (.engage { engaged life e with fired }),
        { env with board := env.board.setInt Engage.shotsKey (shots + 1) }⟩ := by
  rw [run_engage_eq]
  simp only [work, Leaf.behavior, Leaf.run, Engage.run_of_threat _ ht hs, Leaf.attempt]
  exact settle_engage _ _ _ _ _

/-- A guard's leaf counts its shots up to three, and then begins anew. -/
theorem engage_fires (tag : Tag) {life : Life} {e : Engage} {fired : Nat} (hb : e.burst = burst)
    (hc : (engaged life e).fired.toNat = fired) (hf : fired < 3)
    (ht : Engage.threatened env.board = .ok true)
    (hs : env.board.getInt Engage.shotsKey 0 = .ok shots) :
    ∃ life' e', e'.burst = burst ∧ (engaged life' e').fired.toNat = (fired + 1) % 3 ∧
      (leaf tag life (.engage e)).run Leaf.behavior env =
        ⟨if fired = 2 then .success else .running, leaf tag life' (.engage e'),
          { env with board := env.board.setInt Engage.shotsKey (shots + 1) }⟩ := by
  have hburst : (engaged life e).burst = burst := by
    unfold engaged
    split <;> exact hb
  have hfired : (engaged life e).fired = UInt32.ofNat fired := by rw [← hc, UInt32.ofNat_toNat]
  have hstatus : (if burst ≤ UInt32.ofNat fired + 1 then Status.success else .running) =
      if fired = 2 then .success else .running := by
    obtain rfl | rfl | rfl : fired = 0 ∨ fired = 1 ∨ fired = 2 := by omega
    all_goals rfl
  have hrun := run_engage_of_threat tag life e ht hs
  simp only [hburst, hfired, hstatus] at hrun
  refine ⟨_, _, rfl, ?_, hrun⟩
  obtain rfl | rfl | rfl : fired = 0 ∨ fired = 1 ∨ fired = 2 := by omega
  all_goals rfl

/-- Without a threat in sight the leaf fails. -/
theorem run_engage_of_clear (tag : Tag) (life : Life) (e : Engage)
    (ht : Engage.threatened env.board = .ok false) :
    (leaf tag life (.engage e)).run Leaf.behavior env =
      ⟨.failure, leaf tag ⟨.failure, false⟩ (.engage (engaged life e)), env⟩ := by
  rw [run_engage_eq]
  simp only [work, Leaf.behavior, Leaf.run, Engage.run_of_clear _ ht, Leaf.attempt]
  exact settle_engage _ _ _ _ _

/-! ### The tree -/

/-- Whether a guard's tree is as thinks leave it, with some shots fired in the burst: it begins with
the engaging leaf, idle or in the midst of a burst, or it is out on patrol. -/
inductive Poised (fired : Nat) : Node Leaf → Prop where
  | mk {tag tag' : Tag} {life life' : Life} {resume : Nat} {e : Engage} {patrol : Node Leaf}
      (hijack : tag'.flags.hijack = true) (burst : e.burst = Guard.burst)
      (count : (engaged life' e).fired.toNat = fired) (below : fired < 3)
      (beat : OnBeat patrol)
      (place : (if life.started then resume else 0) = 0 ∨
        (if life.started then resume else 0) = 1 ∧ life'.started = false) :
      Poised fired (composite tag life .selector resume [leaf tag' life' (.engage e), patrol])

variable {fired : Nat} {n patrol : Node Leaf} {tag : Tag} (life : Life) (e : Engage)

/-- On patrol the engaging leaf is asked whether there is a threat in sight. -/
theorem probeBefore_patrol (hh : tag.flags.hijack = true) {seen : Bool}
    (ht : Engage.threatened env.board = .ok seen) :
    probeBefore Leaf.behavior (·.hijack) .success 1 [leaf tag life (.engage e), patrol] env =
      (if seen then some 0 else none, env) := by
  have hask : (leaf tag life (.engage e)).evaluate Leaf.behavior env.board env.world =
      (.ofBool seen, env.world) := by
    simp only [evaluate, Leaf.behavior, Leaf.evaluate, ht, Leaf.check]
  simp only [probeBefore, List.length_cons, List.length_nil, Nat.le_add_left, Nat.min_eq_left,
    List.take_succ_cons, List.take_zero, probe, flags, Node.tag, hh, hask, if_true]
  cases seen <;> rfl

/-- With a threat in sight the engaging leaf comes first: nothing was before it, or it takes over
from the patrol. -/
theorem workSelector_of_threat (hh : tag.flags.hijack = true) (hp : OnBeat patrol)
    (ht : Engage.threatened env.board = .ok true) {index : Nat} (hi : index = 0 ∨ index = 1) :
    ∃ patrol' env', OnBeat patrol' ∧ env'.board = env.board ∧
      workSelector Leaf.behavior (Node.run Leaf.behavior) index
          [leaf tag life (.engage e), patrol] env =
        scanFrom (Node.run Leaf.behavior) .failure 0 [leaf tag life (.engage e), patrol'] env' := by
  rcases hi with rfl | rfl
  · exact ⟨patrol, env, hp, rfl, rfl⟩
  · obtain ⟨-, hboard⟩ := hp.isScoped.abort (B := Leaf.behavior) env
    refine ⟨_, _, hp.abort env, hboard, ?_⟩
    rw [workSelector_eq, probeBefore_patrol _ _ hh ht]
    rfl

/-- The patrol on its own leaves the blackboard, and does not fail where the clock is shown. -/
theorem scan_patrol (hp : OnBeat patrol) (env : Env World) :
    ∃ status passed patrol' env', OnBeat patrol' ∧ env'.board = env.board ∧
      (status = .running → passed = 0) ∧ (Clock.IsShown env.board → status ≠ .failure) ∧
      scan (Node.run Leaf.behavior) .failure [patrol] env = ⟨status, passed, [patrol'], env'⟩ := by
  obtain ⟨-, hboard⟩ := hp.isScoped.run (B := Leaf.behavior) env
  by_cases hs : (patrol.run Leaf.behavior env).status = .failure
  · exact ⟨_, _, _, _, hp.run env, hboard, by rintro ⟨⟩, fun hd ↦ absurd hs (hp.status_run hd),
      scan_cons_of_pass hs⟩
  · exact ⟨_, _, _, _, hp.run env, hboard, fun _ ↦ rfl, fun _ ↦ hs, scan_cons_of_ne hs⟩

/-- Without a threat in sight the patrol is what is left: the engaging leaf fails, or it does not
ask to take over. -/
theorem workSelector_of_clear {life : Life} (e : Engage) (hh : tag.flags.hijack = true)
    (hp : OnBeat patrol) (ht : Engage.threatened env.board = .ok false) {index : Nat}
    (hi : index = 0 ∨ index = 1 ∧ life.started = false) :
    ∃ status passed life' e' patrol' env', life'.started = false ∧ e'.burst = e.burst ∧
      OnBeat patrol' ∧ env'.board = env.board ∧ (status = .running → passed = 1) ∧
      (Clock.IsShown env.board → status ≠ .failure) ∧
      workSelector Leaf.behavior (Node.run Leaf.behavior) index
          [leaf tag life (.engage e), patrol] env =
        ⟨status, passed, [leaf tag life' (.engage e'), patrol'], env'⟩ := by
  obtain ⟨status, passed, patrol', env', hbeat, hboard, hpassed, hstatus, hscan⟩ :=
    scan_patrol hp env
  rcases hi with rfl | ⟨rfl, hl⟩
  · have hrun := run_engage_of_clear tag life e ht
    have hfailed : ((leaf tag life (.engage e)).run Leaf.behavior env).status = .failure := by
      rw [hrun]
    refine ⟨status, passed + 1, ⟨.failure, false⟩, engaged life e, patrol', env', rfl, ?_, hbeat,
      hboard, fun hs ↦ by rw [hpassed hs], hstatus, ?_⟩
    · unfold engaged
      split <;> rfl
    · rw [show workSelector Leaf.behavior (Node.run Leaf.behavior) 0 _ env =
        scanFrom (Node.run Leaf.behavior) .failure 0 _ env from rfl]
      simp only [scanFrom, List.drop_zero, scan_cons_of_pass hfailed, hrun, hscan, Nat.zero_add]
      rfl
  · refine ⟨status, passed + 1, life, e, patrol', env', hl, rfl, hbeat, hboard,
      fun hs ↦ by rw [hpassed hs], hstatus, ?_⟩
    rw [workSelector_eq, probeBefore_patrol _ _ hh ht]
    show scanFrom (Node.run Leaf.behavior) .failure 1 [leaf tag life (.engage e), patrol] env = _
    simp only [scanFrom, List.drop_succ_cons, List.drop_zero, hscan, Nat.add_comm 1]
    rfl

/-- A think with a threat in sight fires one shot, and completes the burst with the third. -/
theorem Poised.run_of_threat (h : Poised fired n) (env : Env World)
    (ht : Engage.threatened env.board = .ok true)
    (hs : env.board.getInt Engage.shotsKey 0 = .ok shots) :
    let r := n.run Leaf.behavior env
    r.status = (if fired = 2 then .success else .running) ∧ Poised ((fired + 1) % 3) r.node ∧
      r.env.board = env.board.setInt Engage.shotsKey (shots + 1) := by
  cases h with
  | @mk tag tag' life life' resume e patrol hijack burst count below beat place =>
    obtain ⟨patrol', env', hbeat, hboard, hwork⟩ :=
      workSelector_of_threat life' e hijack beat ht (place.imp_right And.left)
    -- Giving up the patrol may change the world, but the leaf reads the blackboard alone.
    rw [← hboard] at ht hs ⊢
    obtain ⟨life'', e', hburst, hcount, hrun⟩ := engage_fires tag' burst count below ht hs
    have hanswer : ((leaf tag' life' (.engage e)).run Leaf.behavior env').status ≠ .failure := by
      rw [hrun]
      split <;> simp
    rw [run_selector, hwork, scanFrom, List.drop_zero, scan_cons_of_ne hanswer, hrun]
    refine ⟨rfl, .mk hijack hburst hcount (Nat.mod_lt _ (by decide)) hbeat (.inl ?_), rfl⟩
    simp

/-- A think without a threat in sight fires no shot, and gives up the burst. Where the clock is
shown it does not fail. -/
theorem Poised.run_of_clear (h : Poised fired n) (env : Env World)
    (ht : Engage.threatened env.board = .ok false) :
    let r := n.run Leaf.behavior env
    Poised 0 r.node ∧ r.env.board = env.board ∧
      (Clock.IsShown env.board → r.status ≠ .failure) := by
  cases h with
  | @mk tag tag' life life' resume e patrol hijack burst count below beat place =>
    obtain ⟨status, passed, life'', e', patrol', env', hlife, hburst, hbeat, hboard, hpassed,
      hstatus, hwork⟩ := workSelector_of_clear e hijack beat ht place
    rw [run_selector, hwork]
    refine ⟨.mk hijack (hburst.trans burst) ?_ (by decide) hbeat ?_, hboard, hstatus⟩
    · simp [engaged, hlife, Engage.start]
    · cases status with
      | running => exact .inr ⟨hpassed rfl, hlife⟩
      | success => exact .inl rfl
      | failure => exact .inl rfl

/-- Aborting leaves the blackboard, whatever the guard was doing. -/
theorem Poised.board_abort (h : Poised fired n) (env : Env World) :
    (n.abort Leaf.behavior env).2.board = env.board := by
  cases hs : n.started with
  | false => rw [abort_of_not_started hs]
  | true =>
    rw [abort_of_started hs]
    cases h with
    | @mk tag tag' life life' resume e patrol hijack burst count below beat place =>
      refine board_stopRunningAt (fun c hc env ↦ ?_) resume env
      rcases List.mem_cons.mp hc with rfl | hc
      · unfold Node.abort abandon
        split <;> rfl
      · rcases List.mem_singleton.mp hc with rfl
        exact (beat.isScoped.abort env).2

end Guard

end BehaviorTree
