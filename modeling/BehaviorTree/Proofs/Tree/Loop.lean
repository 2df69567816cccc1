import BehaviorTree.Proofs.Lifecycle.Protocol
import BehaviorTree.Proofs.Node.Moved
import BehaviorTree.Proofs.Node.Turns

/-!
# The activations of a loop

A loop runs its child at most once in a tick and counts the activations of it that came to an end,
up to the largest word. A limited loop succeeds with the activation that makes up the limit. The
count, the answers of the loop and what is open below it all follow the log of its deeds since it
was started.
-/

namespace BehaviorTree

variable {ο σ ω : Type}

namespace Deed

/-- Whether an activation of the child came to an end by itself. -/
def completes : Deed → Bool
  | run _ _ answer => answer.isTerminal
  | abort _ => false

/-- The hooks that are called on the child, if it is a leaf. -/
def hooks : Deed → List HookCall
  | run _ opens answer => HookCall.ofRun (!opens) answer
  | abort _ => HookCall.ofAbort true

end Deed

/-- How many activations came to an end by themselves. -/
def completions (log : List Deed) : Nat := log.countP Deed.completes

private theorem completions_append (log deeds : List Deed) :
    completions (log ++ deeds) = completions log + completions deeds := List.countP_append

private theorem completions_run (index : Nat) (opens : Bool) (answer : Status) :
    completions [.run index opens answer] = if answer = .running then 0 else 1 := by
  cases answer <;> rfl

/-- The memory with which a decorator works in a tick: starting sets the count back. -/
def Memory.begun (m : Memory) (started : Bool) : Memory :=
  if started then m else { m with count := 0 }

private theorem Memory.toNat_count_counted (m : Memory) :
    m.counted.count.toNat = min (m.count.toNat + 1) 0xffffffff := by
  have hlt := m.count.toNat_lt
  by_cases h : m.count = 0xffffffff
  · simp [counted, h]
  · have hne : m.count.toNat ≠ 0xffffffff := fun heq ↦ h (UInt32.toNat.inj heq)
    have hadd : (m.count + 1).toNat = m.count.toNat + 1 := by
      rw [UInt32.toNat_add, UInt32.toNat_one, Nat.mod_eq_of_lt (by omega)]
    simp only [counted, if_neg h, hadd]
    omega

private theorem Memory.reached_some_iff (m : Memory) (times : UInt32) :
    m.reached (some times) = true ↔ times.toNat ≤ m.count.toNat := by
  simp [reached, UInt32.le_iff_toNat_le]

namespace Node

/-- The count of completed activations that a decorator remembers. -/
def iterations? : Node σ → Option UInt32
  | decorator _ _ _ memory _ => some memory.count
  | _ => none

/-- What a loop does to its child in a tick. -/
def loopDeeds (B : Behavior ο σ ω) (n : Node σ) (env : Env ω) : List Deed :=
  match n with
  | decorator _ life (.loop limit) memory (some child) =>
    if (memory.begun life.started).reached limit then []
    else [.run 0 (!child.started) (child.run B env).status]
  | _ => []

/-- Whether a loop comes to another, with a log of its deeds, by ticks that it all answers
running. -/
inductive Looping (B : Behavior ο σ ω) (n : Node σ) : List Deed → Node σ → Prop where
  | begin : Looping B n [] n
  | tick {log : List Deed} {m : Node σ} (h : Looping B n log m) (env : Env ω)
      (hs : (m.run B env).status = .running) :
      Looping B n (log ++ m.loopDeeds B env) (m.run B env).node

/-- How a loop over `child` comes by deeds through a tick, with a log of its deeds since it was
started. -/
structure LoopTick (B : Behavior ο σ ω) (limit : Option UInt32) (log : List Deed) (child : Node σ)
    (env : Env ω) (deeds : List Deed) (s : Step σ ω) : Prop where
  /-- A loop that is to take no turn succeeds and leaves its child alone. -/
  idle : limit = some 0 →
    deeds = [] ∧ s.status = .success ∧ s.node.children = [child] ∧ s.env = env
  /-- Any other runs its child once. If that came to an end, it is as if it was never run. -/
  turn : limit ≠ some 0 →
    let r := child.run B env
    deeds = [.run 0 (!child.started) r.status] ∧ s.env = r.env ∧
      s.node.children = [if r.status = .running then r.node else r.node.withLife .fresh]
  /-- Each activation of the child is closed before the next is opened. -/
  inTurn : InTurn (fun _ ↦ false) (log ++ deeds)
  closed : completions deeds = 1 → ∀ c ∈ s.node.children, ∀ m ∈ c.preorder, m.started = false
  count : ∃ count, s.node.iterations? = some count ∧
    count.toNat = min (completions (log ++ deeds)) 0xffffffff
  /-- A limited loop succeeds when the limit is made up, and is suspended before. -/
  limited : ∀ times, limit = some times → times ≠ 0 →
    completions log < times.toNat ∧
      (s.status = .success ↔ completions (log ++ deeds) = times.toNat) ∧
      (s.status = .running ↔ completions (log ++ deeds) < times.toNat)
  unlimited : limit = none → s.status = .running
  never_fails : s.status ≠ .failure

/-- What the log since a loop was started tells of it. -/
structure LoopLog (limit : Option UInt32) (log : List Deed) (life : Life) (memory : Memory)
    (child : Node σ) : Prop where
  inTurn : InTurn (fun _ ↦ false) log
  started : openAfter (fun _ ↦ false) log 0 = child.started
  count : (memory.begun life.started).count.toNat = min (completions log) 0xffffffff
  room : ∀ times, limit = some times → times ≠ 0 → completions log < times.toNat
  idle : limit = some 0 → child.started = false

variable {B : Behavior ο σ ω} {L : Phase → σ → Prop} {tag : Tag} {life : Life}
  {limit : Option UInt32} {memory : Memory} {child m first : Node σ} {env : Env ω}
  {log : List Deed}

/-! ### A run of a loop -/

private theorem run_loop_eq (B : Behavior ο σ ω) (tag : Tag) (life : Life) (limit : Option UInt32)
    (memory : Memory) (child : Node σ) (env : Env ω) :
    let r := workDecorator B (Node.run B) (.loop limit) (memory.begun life.started) child env
    (decorator tag life (.loop limit) memory (some child)).run B env =
      settle B ⟨r.1.status, decorator tag { life with started := true } (.loop limit) r.2
        (some r.1.node), r.1.env⟩ := by
  obtain ⟨state, started⟩ := life
  rw [run_eq, advance]
  cases started with
  | true => rfl
  | false => rfl

/-- Settling a loop leaves a child alone that is not started. -/
theorem settle_loop (hs : child.started = false) (status : Status) (env : Env ω) :
    settle B ⟨status, decorator tag life (.loop limit) memory (some child), env⟩ =
      ⟨status, decorator tag ⟨.ofStatus status, status.isRunning⟩ (.loop limit) memory (some child),
        env⟩ := by
  by_cases h : status = .running
  · subst h
    rw [settle_of_running rfl]
    rfl
  · rw [settle_of_ne_running h, Status.isRunning_eq_false h]
    simp [stop, hs, withLife]

/-- A loop that has reached its limit succeeds at once. -/
theorem run_loop_of_reached (hm : (memory.begun life.started).reached limit = true)
    (hs : child.started = false) (env : Env ω) :
    (decorator tag life (.loop limit) memory (some child)).run B env =
      ⟨.success, decorator tag ⟨.success, false⟩ (.loop limit) (memory.begun life.started)
        (some child), env⟩ := by
  rw [run_loop_eq, workDecorator_loop_of_reached hm, settle_loop hs]
  rfl

/-- A loop is suspended with its child. -/
theorem run_loop_of_running (hm : (memory.begun life.started).reached limit = false)
    (hs : (child.run B env).status = .running) :
    (decorator tag life (.loop limit) memory (some child)).run B env =
      ⟨.running, decorator tag ⟨.running, true⟩ (.loop limit) (memory.begun life.started)
        (some (child.run B env).node), (child.run B env).env⟩ := by
  rw [run_loop_eq, workDecorator_loop_of_running hm hs]
  exact settle_of_running hs

/-- A loop counts an activation of its child that came to an end. The abort that follows finds
nothing to stop. -/
theorem run_loop_of_ne_running (hm : (memory.begun life.started).reached limit = false)
    (hs : (child.run B env).status ≠ .running) :
    let counted := (memory.begun life.started).counted
    ∃ status : Status, status = (if counted.reached limit then .success else .running) ∧
      (decorator tag life (.loop limit) memory (some child)).run B env =
        ⟨status, decorator tag ⟨.ofStatus status, status.isRunning⟩ (.loop limit) counted
          (some ((child.run B env).node.withLife .fresh)), (child.run B env).env⟩ := by
  have hchild : (child.run B env).node.started = false := by
    rw [started_run, Status.isRunning_eq_false hs]
  have hfresh : ((child.run B env).node.withLife .fresh).started = false := started_withLife _ _
  refine ⟨_, rfl, ?_⟩
  rw [run_loop_eq, workDecorator_loop_of_ne_running hm hs, abort_of_not_started hchild,
    settle_loop hfresh]

/-! ### The log of an activation -/

namespace LoopLog

private theorem reached_iff (h : LoopLog limit log life memory child) :
    (memory.begun life.started).reached limit = true ↔ limit = some 0 := by
  cases hlimit : limit with
  | none => simp [Memory.reached]
  | some times =>
    rw [Memory.reached_some_iff, h.count, Option.some.injEq]
    constructor
    · intro hle
      by_contra hne
      have hroom := h.room times hlimit hne
      omega
    · rintro rfl
      exact Nat.zero_le _

private theorem count_counted (h : LoopLog limit log life memory child) :
    (memory.begun life.started).counted.count.toNat = min (completions log + 1) 0xffffffff := by
  rw [Memory.toNat_count_counted, h.count]
  omega

/-- With one more activation the limit is reached exactly if that one makes it up. -/
theorem reached_counted_iff (h : LoopLog limit log life memory child) {times : UInt32}
    (htimes : limit = some times) (hne : times ≠ 0) :
    (memory.begun life.started).counted.reached limit = true ↔
      completions log + 1 = times.toNat := by
  have hroom := h.room times htimes hne
  have hlt := times.toNat_lt
  rw [htimes, Memory.reached_some_iff, h.count_counted]
  omega

/-- A deed that opens an activation of the child if there is none goes on with the log. -/
theorem inTurn_run (h : LoopLog limit log life memory child) (answer : Status) :
    InTurn (fun _ ↦ false) (log ++ [.run 0 (!child.started) answer]) :=
  h.inTurn.append ⟨congrArg Bool.not h.started.symm, trivial⟩

private theorem openAfter_run (log : List Deed) (opens : Bool) (answer : Status) :
    openAfter (fun _ ↦ false) (log ++ [.run 0 opens answer]) 0 = answer.isRunning := by
  rw [openAfter_append]
  rfl

end LoopLog

/-- What a log has to do with a tick of a loop: the tick is as `LoopTick` says, and if it suspends
the loop, the log with its deeds tells of the loop again. -/
def Looped (B : Behavior ο σ ω) (tag : Tag) (limit : Option UInt32) (log : List Deed)
    (child : Node σ) (env : Env ω) (deeds : List Deed) (s : Step σ ω) : Prop :=
  LoopTick B limit log child env deeds s ∧
    (s.status = .running → ∃ life memory child,
      s.node = decorator tag life (.loop limit) memory (some child) ∧
        LoopLog limit (log ++ deeds) life memory child)

private theorem looped_of_idle (hlog : LoopLog limit log life memory child)
    (hlimit : limit = some 0) (env : Env ω) :
    let n := decorator tag life (.loop limit) memory (some child)
    Looped B tag limit log child env (n.loopDeeds B env) (n.run B env) := by
  intro n
  have hm := hlog.reached_iff.mpr hlimit
  have hdeeds : n.loopDeeds B env = [] := if_pos hm
  rw [hdeeds, run_loop_of_reached hm (hlog.idle hlimit)]
  have htick : LoopTick B limit log child env [] ⟨.success,
      decorator tag ⟨.success, false⟩ (.loop limit) (memory.begun life.started) (some child),
      env⟩ :=
    { idle := fun _ ↦ ⟨rfl, rfl, rfl, rfl⟩
      turn := fun hne ↦ absurd hlimit hne
      inTurn := by rw [List.append_nil]; exact hlog.inTurn
      closed := fun hc ↦ by cases hc
      count := ⟨_, rfl, by rw [List.append_nil]; exact hlog.count⟩
      limited := fun times htimes hne ↦
        absurd (Option.some.inj (htimes.symm.trans hlimit)) hne
      unlimited := fun hnone ↦ by rw [hnone] at hlimit; cases hlimit
      never_fails := by simp }
  exact ⟨htick, fun hr ↦ nomatch hr⟩

private theorem looped_of_running (hlog : LoopLog limit log life memory child)
    (hlimit : limit ≠ some 0) (hs : (child.run B env).status = .running) :
    let n := decorator tag life (.loop limit) memory (some child)
    Looped B tag limit log child env (n.loopDeeds B env) (n.run B env) := by
  intro n
  have hm : (memory.begun life.started).reached limit = false := by
    simpa using mt hlog.reached_iff.mp hlimit
  have hdeeds : n.loopDeeds B env = [.run 0 (!child.started) .running] := by
    simp [n, loopDeeds, hm, hs]
  have hturn := hlog.inTurn_run .running
  have hsame : completions (log ++ [.run 0 (!child.started) .running]) = completions log := by
    rw [completions_append, completions_run, if_pos rfl, Nat.add_zero]
  rw [hdeeds, run_loop_of_running hm hs]
  constructor
  · exact
      { idle := fun heq ↦ absurd heq hlimit
        turn := fun _ ↦ ⟨by rw [hs], rfl, by rw [if_pos hs]; rfl⟩
        inTurn := hturn
        closed := fun hc ↦ by cases hc
        count := ⟨_, rfl, by rw [hsame]; exact hlog.count⟩
        limited := fun times htimes hne ↦ by
          have hroom := hlog.room times htimes hne
          rw [hsame]
          exact ⟨hroom, iff_of_false (by simp) (by omega), iff_of_true rfl hroom⟩
        unlimited := fun _ ↦ rfl
        never_fails := by simp }
  · intro _
    refine ⟨_, _, _, rfl, hturn, ?_, ?_, ?_, fun heq ↦ absurd heq hlimit⟩
    · rw [LoopLog.openAfter_run, started_run, hs]
    · rw [hsame]
      exact hlog.count
    · rw [hsame]
      exact hlog.room

private theorem looped_of_ne_running (hB : B.Respects L)
    (h : (decorator tag life (.loop limit) memory (some child)).AllSteady L)
    (hlog : LoopLog limit log life memory child) (hlimit : limit ≠ some 0)
    (hs : (child.run B env).status ≠ .running) :
    let n := decorator tag life (.loop limit) memory (some child)
    Looped B tag limit log child env (n.loopDeeds B env) (n.run B env) := by
  intro n
  have hm : (memory.begun life.started).reached limit = false := by
    simpa using mt hlog.reached_iff.mp hlimit
  have hdeeds : n.loopDeeds B env = [.run 0 (!child.started) (child.run B env).status] := by
    simp [n, loopDeeds, hm]
  have hturn := hlog.inTurn_run (child.run B env).status
  have hnext : completions (log ++ n.loopDeeds B env) = completions log + 1 := by
    rw [hdeeds, completions_append, completions_run, if_neg hs]
  obtain ⟨status, hstatus, hrun⟩ := run_loop_of_ne_running hm hs
  have hanswer (times : UInt32) (htimes : limit = some times) (hne : times ≠ 0) :
      (status = .success ↔ completions log + 1 = times.toNat) ∧
        (status = .running ↔ completions log + 1 < times.toNat) := by
    have hroom := hlog.room times htimes hne
    have hreached := hlog.reached_counted_iff htimes hne
    by_cases hr : completions log + 1 = times.toNat
    · simp [hstatus, hreached.mpr hr, hr]
    · have hlt : completions log + 1 < times.toNat := by omega
      simp [hstatus, mt hreached.mp hr, hr, hlt]
  have hquiet : ∀ c ∈ (n.run B env).node.children, ∀ m ∈ c.preorder, m.started = false := by
    intro c hc
    have hsteady := (run_steady hB env h).below hc
    rw [hrun] at hc
    rw [List.mem_singleton.mp hc] at hsteady ⊢
    exact not_started_of_resting hsteady (started_withLife _ _)
  constructor
  · exact
      { idle := fun heq ↦ absurd heq hlimit
        turn := fun _ ↦ ⟨hdeeds, by rw [hrun], by rw [hrun, if_neg hs]; rfl⟩
        inTurn := hdeeds ▸ hturn
        closed := fun _ ↦ hquiet
        count := ⟨_, by rw [hrun]; rfl, by rw [hnext]; exact hlog.count_counted⟩
        limited := fun times htimes hne ↦ by
          rw [hnext, hrun]
          exact ⟨hlog.room times htimes hne, hanswer times htimes hne⟩
        unlimited := fun hnone ↦ by
          rw [hrun]
          simp [hstatus, hnone, Memory.reached]
        never_fails := by
          rw [hrun, hstatus]
          split <;> simp }
  · intro hr
    rw [hrun] at hr ⊢
    obtain rfl : status = .running := hr
    refine ⟨_, _, _, rfl, hdeeds ▸ hturn, ?_, ?_, ?_, fun _ ↦ started_withLife _ _⟩
    · rw [hdeeds, LoopLog.openAfter_run, started_withLife, Status.isRunning_eq_false hs, Life.fresh]
    · rw [hnext]
      exact hlog.count_counted
    · intro times htimes hne
      rw [hnext]
      exact (hanswer times htimes hne).2.mp rfl

/-- How a loop goes through a tick, and what the log tells of it afterwards. -/
theorem looped (hB : B.Respects L)
    (h : (decorator tag life (.loop limit) memory (some child)).AllSteady L)
    (hlog : LoopLog limit log life memory child) (env : Env ω) :
    let n := decorator tag life (.loop limit) memory (some child)
    Looped B tag limit log child env (n.loopDeeds B env) (n.run B env) := by
  by_cases hlimit : limit = some 0
  · exact looped_of_idle hlog hlimit env
  · by_cases hs : (child.run B env).status = .running
    · exact looped_of_running hlog hlimit hs
    · exact looped_of_ne_running hB h hlog hlimit hs

/-- Nothing is logged of a loop that is to be started. -/
theorem loopLog_nil (h : (decorator tag life (.loop limit) memory (some child)).Steady L)
    (hs : life.started = false) : LoopLog limit [] life memory child := by
  have hchild : child.started = false := (h.resting hs).2 child rfl
  refine ⟨trivial, hchild.symm, by simp [Memory.begun, hs, completions], ?_, fun _ ↦ hchild⟩
  intro times _ hne
  exact Nat.pos_of_ne_zero fun hzero ↦ hne (UInt32.toNat.inj hzero)

/-- Whatever the ticks so far, the log tells of the loop. -/
theorem Looping.spec (hB : B.Respects L) (h : first.Looping B log m) (hfirst : first.AllSteady L)
    (hloop : first = decorator tag life (.loop limit) memory (some child))
    (hs : first.started = false) :
    m.AllSteady L ∧ ∃ life memory child,
      m = decorator tag life (.loop limit) memory (some child) ∧
        LoopLog limit log life memory child := by
  induction h with
  | begin =>
    subst hloop
    exact ⟨hfirst, life, memory, child, rfl, loopLog_nil hfirst.here hs⟩
  | tick _ env hrunning ih =>
    obtain ⟨hsteady, life', memory', child', rfl, hlog⟩ := ih
    exact ⟨run_steady hB env hsteady, (looped hB hsteady hlog env).2 hrunning⟩

/-- The ticks of an activation have a log. -/
theorem Resumed.looping (h : first.Resumed B m) : ∃ log, first.Looping B log m := by
  induction h with
  | refl => exact ⟨[], .begin⟩
  | run _ env hs ih =>
    obtain ⟨log, hlog⟩ := ih
    exact ⟨_, hlog.tick env hs⟩

/-- Whatever happened to a loop that was not started, it is in an activation, or in none. -/
theorem Moved.looping {n : Node σ} (hn : n.started = false) (h : n.Moved B m) :
    ∃ first log, n.Moved B first ∧ first.started = false ∧ first.Looping B log m := by
  obtain ⟨first, hfirst, hstarted, hm⟩ := h.resumed hn
  obtain ⟨log, hlog⟩ := hm.looping
  exact ⟨first, log, hfirst, hstarted, hlog⟩

/-- What the records of the leaves tell of a tick of a loop. -/
structure LoopRecord (ns : List (Node (σ × List HookCall))) (deeds : List Deed)
    (s : Step (σ × List HookCall) ω) : Prop where
  /-- The hooks of a child that is a leaf are called as the deeds say. -/
  hooks : ∀ history, ns.map history? = [some history] →
    s.node.children.map history? = [some (history ++ deeds.flatMap Deed.hooks)]
  /-- When the child has come to an end, all activations of leaves below are closed. -/
  balanced : completions deeds = 1 → ∀ tag life state history,
    leaf tag life (state, history) ∈ s.node.preorder →
      Balanced history ∧ history.count .stop = history.count .start

private theorem loopRecord {child : Node (σ × List HookCall)} {s : Step (σ × List HookCall) ω}
    {deeds : List Deed}
    (hsteady : s.node.AllSteady fun p s ↦ p.Protocol s.2) (hleaf : s.node.leaf? = none)
    (htick : LoopTick B.recorded limit log child env deeds s) :
    LoopRecord [child] deeds s := by
  constructor
  · intro history hhistory
    have hhistory : child.history? = some history := List.singleton_inj.mp hhistory
    by_cases hlimit : limit = some 0
    · obtain ⟨rfl, -, hchildren, -⟩ := htick.idle hlimit
      simp [hchildren, hhistory]
    · obtain ⟨rfl, -, hchildren⟩ := htick.turn hlimit
      cases child with
      | leaf tag life state =>
        obtain rfl : state.2 = history := Option.some.inj hhistory
        have hrun := history?_run B tag life state.1 state.2 env
        simp only [hchildren, List.map_singleton, List.flatMap_singleton, Deed.hooks, Bool.not_not]
        refine congrArg (fun record ↦ [record]) ?_
        split
        · exact hrun
        · rw [history?_withLife]
          exact hrun
      | composite => cases hhistory
      | decorator => cases hhistory
  · intro hcompleted tag life state history hmem
    have hstarted : (leaf tag life (state, history)).started = false := by
      rw [preorder_eq] at hmem
      rcases List.mem_cons.mp hmem with heq | hmem
      · rw [← heq] at hleaf
        cases hleaf
      · obtain ⟨c, hc, hmem⟩ := mem_preorders.mp hmem
        exact htick.closed hcompleted c hc _ hmem
    have hprotocol := protocol_of_allSteady hsteady hmem
    rw [if_neg (by simpa [started, Node.life] using hstarted), Phase.protocol_idle] at hprotocol
    exact ⟨hprotocol, hprotocol.count_eq⟩

end Node

namespace Tree

open Node

/-- A loop over a child that stands anywhere in a tree that was not used. What is done with the tree
comes down to runs and aborts of the loop. Whatever state they lead to is come to by an activation,
ticks that are answered running from a state in which the loop is not started, and their deeds make
a log. On every further tick, `LoopTick` says how the count, the answer and what is open follow
the log, and `LoopRecord` which hooks are called below. -/
theorem loop_counts (B : Behavior ο σ ω) {t : Tree ο σ} (h : t.root.AllUnused) {path : List Nat}
    {tag : Tag} {life : Life} {limit : Option UInt32} {memory : Memory} {child : Node σ}
    (hn : t.root.at? path = some (decorator tag life (.loop limit) memory (some child))) :
    let n := decorator tag life (.loop limit) memory (some child)
    let n' := n.map fun s ↦ (s, ([] : List HookCall))
    (∀ calls : List (Call ω), ∃ m,
      (t.serveAll B calls).tree.root.at? path = some m ∧ n.Moved B m) ∧
    (∀ m, n.Moved B m → ∃ first log, n.Moved B first ∧ first.started = false ∧
      first.Looping B log m) ∧
    (∀ first, n.Moved B first → first.started = false → ∀ log m, first.Looping B log m →
      ∃ life memory child, m = decorator tag life (.loop limit) memory (some child) ∧
        ∀ env, LoopTick B limit log child env (m.loopDeeds B env) (m.run B env)) ∧
    ∀ m, n'.Moved B.recorded m → n.Moved B (m.map Prod.fst) ∧
      ∀ env, LoopRecord m.children (m.loopDeeds B.recorded env) (m.run B.recorded env) := by
  intro n n'
  have hunused : n.AllUnused := h.at_mem (mem_preorder_of_at? hn)
  have hsteady : n.AllSteady fun _ _ ↦ True :=
    allSteady_of_allUnused hunused fun _ _ _ _ ↦ trivial
  have hstarted : n.started = false := by rw [started, hunused.here.life_eq, Life.fresh]
  refine ⟨moved_serveAll B hn, fun m hm ↦ ?_, fun first hfirst hs log m hm ↦ ?_, fun m hm ↦ ?_⟩
  · exact hm.looping hstarted
  · obtain ⟨life', memory', child', hloop⟩ := hfirst.exists_decorator
    obtain ⟨hmsteady, life', memory', child', rfl, hlog⟩ :=
      hm.spec B.respects_true (hfirst.allSteady B.respects_true hsteady) hloop hs
    exact ⟨life', memory', child', rfl,
      fun env ↦ (looped B.respects_true hmsteady hlog env).1⟩
  · have hprojects := B.projects_recorded
    have hback : n'.map Prod.fst = n := by rw [Node.map_map, Node.map_self]
    have hsteady' : n'.AllSteady fun p s ↦ p.Protocol s.2 :=
      allSteady_of_allUnused (allUnused_map hunused) (protocol_of_empty n)
    have hs' : n'.started = false := by rwa [started_map]
    refine ⟨hback ▸ hm.map hprojects, fun env ↦ ?_⟩
    obtain ⟨first, log, hfirst, hs, hlooping⟩ := hm.looping hs'
    obtain ⟨life', memory', child', hloop⟩ := hfirst.exists_decorator
    obtain ⟨hmsteady, life', memory', child', rfl, hlog⟩ :=
      hlooping.spec B.respects_protocol (hfirst.allSteady B.respects_protocol hsteady') hloop hs
    obtain ⟨_, _, _, hnode⟩ := (hm.run env).exists_decorator
    exact loopRecord (run_steady B.respects_protocol env hmsteady) (by rw [hnode]; rfl)
      (looped B.respects_protocol hmsteady hlog env).1

/-- A wait that is over at once, twice in a row. -/
theorem loop_counts_wait :
    let wait := Node.newLeaf (.plain (.ofNat 1) "wait") (Leaf.wait (.ofSeconds 0))
    let twice := Node.newDecorator (.plain (.ofNat 0) "twice") (.loop (some 2)) (some wait)
    let t : Tree Owner Leaf := ⟨twice, [], none, false, none⟩
    t.root.AllUnused ∧ t.root.at? [] = some twice ∧
      ∀ log m, twice.Looping Leaf.behavior log m →
        ∃ life memory child, m = decorator twice.tag life (.loop (some 2)) memory (some child) ∧
          ∀ env, LoopTick Leaf.behavior (some 2) log child env (m.loopDeeds Leaf.behavior env)
            (m.run Leaf.behavior env) := by
  intro wait twice t
  have hunused : t.root.AllUnused := by
    refine allUnused_newDecorator fun c hc ↦ ?_
    obtain rfl := Option.some.inj hc
    exact allUnused_newLeaf _ _
  have htwice : t.root.at? [] = some twice := rfl
  exact ⟨hunused, htwice, (loop_counts Leaf.behavior hunused htwice).2.2.1 twice .refl rfl⟩

end Tree

end BehaviorTree
