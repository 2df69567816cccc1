import BehaviorTree.Node.Run

/-!
# The steps of a run

A run is a start, a tick of work and a settlement. The lemmas here say what each of them, and each
turn of the loops over children, does in each of its cases, so that no later proof unfolds them.
-/

namespace BehaviorTree

variable {ο σ ω : Type}

/-- Every answer but the suspended one is terminal. -/
theorem Status.isTerminal_iff {s : Status} : s.isTerminal = true ↔ s ≠ .running := by
  cases s <;> simp [isTerminal, isRunning]

/-- The test for the suspended answer finds that one alone. -/
theorem Status.isRunning_iff {s : Status} : s.isRunning = true ↔ s = .running := by
  cases s <;> simp [isRunning]

/-- The test for the suspended answer finds no other. -/
theorem Status.isRunning_eq_false {s : Status} (h : s ≠ .running) : s.isRunning = false := by
  simpa using mt isRunning_iff.mp h

/-- An answer is suspended exactly when the inverted one is. -/
theorem Status.invert_eq_running_iff {s : Status} : s.invert = .running ↔ s = .running := by
  cases s <;> simp [invert]

/-- An answer is suspended exactly when the forgiven one is. -/
theorem Status.forgive_eq_running_iff {s : Status} : s.forgive = .running ↔ s = .running := by
  cases s <;> simp [forgive]

namespace Node

variable {B : Behavior ο σ ω}

/-- The beginning of a run leaves the size. -/
@[simp] theorem size_begin (B : Behavior ο σ ω) (n : Node σ) (env : Env ω) :
    (n.begin B env).1.size = n.size := by
  rw [size_eq, size_eq n, children_begin]

/-- A started node has nothing to begin. -/
theorem begin_of_started {n : Node σ} (h : n.started = true) (env : Env ω) :
    n.begin B env = (n, env) := if_pos h

/-- A node that was begun is started. -/
theorem started_begin (B : Behavior ο σ ω) (n : Node σ) (env : Env ω) :
    (n.begin B env).1.started = true := by
  unfold begin
  split
  · assumption
  · cases n <;> rfl

/-- Work leaves the node started if it was. -/
@[simp] theorem started_work {n : Node σ} (run : Node σ → Env ω → Step σ ω) (env : Env ω) :
    (n.work B run env).node.started = n.started := by
  cases n with
  | leaf => rfl
  | composite _ _ kind => cases kind <;> rfl
  | decorator _ _ _ _ child => cases child <;> rfl

/-! ### Settling -/

/-- A node that came to an end is stopped, and its state records the answer. -/
theorem settle_of_ne_running {s : Step σ ω} (h : s.status ≠ .running) :
    settle B s = ⟨s.status, (s.node.stop B s.env).1.withLife ⟨.ofStatus s.status, false⟩,
      (s.node.stop B s.env).2⟩ := by
  simp [settle, Status.isTerminal_iff.mpr h]

/-- A node that is suspended stays started. -/
theorem settle_of_running {s : Step σ ω} (h : s.status = .running) :
    settle B s = ⟨.running, s.node.withLife ⟨.running, true⟩, s.env⟩ := by
  cases s
  subst h
  rfl

/-- What follows a tick of work leaves its answer. -/
@[simp] theorem status_settle (s : Step σ ω) : (settle B s).status = s.status := by
  by_cases h : s.status = .running
  · rw [settle_of_running h, h]
  · rw [settle_of_ne_running h]

private theorem life_settle (s : Step σ ω) :
    (settle B s).node.life = ⟨.ofStatus s.status, s.status.isRunning⟩ := by
  by_cases h : s.status = .running
  · rw [settle_of_running h, h, life_withLife]
    rfl
  · rw [settle_of_ne_running h, life_withLife, Status.isRunning_eq_false h]

/-- A run leaves the node in the state of its answer, and started if it is to be resumed. -/
theorem life_run (B : Behavior ο σ ω) (n : Node σ) (env : Env ω) :
    (n.run B env).node.life = ⟨.ofStatus (n.run B env).status, (n.run B env).status.isRunning⟩ := by
  rw [run_eq, advance, life_settle, status_settle]

/-- After a run, a node is started exactly when it is suspended. -/
theorem started_run (B : Behavior ο σ ω) (n : Node σ) (env : Env ω) :
    (n.run B env).node.started = (n.run B env).status.isRunning := by
  rw [started, life_run]

/-! ### Tags -/

/-- The beginning of a run leaves the tag. -/
@[simp] theorem tag_begin (B : Behavior ο σ ω) (n : Node σ) (env : Env ω) :
    (n.begin B env).1.tag = n.tag := by
  unfold begin
  split
  · rfl
  · cases n <;> rfl

/-- A tick of work leaves the tag. -/
@[simp] theorem tag_work (n : Node σ) (run : Node σ → Env ω → Step σ ω) (env : Env ω) :
    (n.work B run env).node.tag = n.tag := by
  cases n with
  | leaf => rfl
  | composite _ _ kind => cases kind <;> rfl
  | decorator _ _ _ _ child => cases child <;> rfl

/-- Stopping leaves the tag. -/
@[simp] theorem tag_stop (B : Behavior ο σ ω) (n : Node σ) (env : Env ω) :
    (n.stop B env).1.tag = n.tag := by
  cases n with
  | leaf => rfl
  | composite _ _ kind => cases kind <;> rfl
  | decorator _ _ kind _ child =>
    cases child with
    | none => rfl
    | some => cases kind <;> rfl

/-- What the author gave to a node survives its runs. -/
@[simp] theorem tag_run (B : Behavior ο σ ω) (n : Node σ) (env : Env ω) :
    (n.run B env).node.tag = n.tag := by
  rw [run_eq, advance, settle]
  split <;> simp

/-- An abort leaves the tag. -/
@[simp] theorem tag_abort (B : Behavior ο σ ω) (n : Node σ) (env : Env ω) :
    (n.abort B env).1.tag = n.tag := by
  unfold abort abandon
  split <;> simp

/-! ### Aborting -/

/-- Aborting a started node stops it and makes its life a fresh one. -/
theorem abort_of_started {n : Node σ} (h : n.started = true) (env : Env ω) :
    n.abort B env = ((n.stop B env).1.withLife .fresh, (n.stop B env).2) := by
  simp [abort, abandon, h]

/-- Aborting a node that is not started only makes its life a fresh one. -/
theorem abort_of_not_started {n : Node σ} (h : n.started = false) (env : Env ω) :
    n.abort B env = (n.withLife .fresh, env) := by
  simp [abort, abandon, h]

/-- After an abort, the life is a fresh one. -/
@[simp] theorem life_abort (B : Behavior ο σ ω) (n : Node σ) (env : Env ω) :
    (n.abort B env).1.life = .fresh := by
  unfold abort abandon
  split <;> simp

/-- After an abort, a node is not started. -/
@[simp] theorem started_abort (B : Behavior ο σ ω) (n : Node σ) (env : Env ω) :
    (n.abort B env).1.started = false := by
  simp [started, Life.fresh]

/-- Of some nodes, the first is aborted if it is running, and then the others are. -/
theorem stopRunning_cons (B : Behavior ο σ ω) (c : Node σ) (rest : List (Node σ)) (env : Env ω) :
    stopRunning B (c :: rest) env =
      let r := if c.state = .running then c.abort B env else (c, env)
      let rs := stopRunning B rest r.2
      (r.1 :: rs.1, rs.2) := rfl

/-- At the index of the first node, that one is aborted if it is running. -/
theorem stopRunningAt_zero (B : Behavior ο σ ω) (c : Node σ) (rest : List (Node σ)) (env : Env ω) :
    stopRunningAt B (c :: rest) 0 env =
      let r := if c.state = .running then c.abort B env else (c, env)
      (r.1 :: rest, r.2) := rfl

/-- At any later index, the first node is passed over. -/
theorem stopRunningAt_succ (B : Behavior ο σ ω) (c : Node σ) (rest : List (Node σ)) (index : Nat)
    (env : Env ω) :
    stopRunningAt B (c :: rest) (index + 1) env =
      let rs := stopRunningAt B rest index env
      (c :: rs.1, rs.2) := rfl

/-- Aborting a node of a list leaves its length. -/
theorem length_abortAt (B : Behavior ο σ ω) (ns : List (Node σ)) (index : Nat) (env : Env ω) :
    (abortAt B ns index env).1.length = ns.length := by
  have h := congrArg List.length (map_size_abortAt B ns index env)
  simpa using h

/-- Aborting one of several nodes makes none of them larger. -/
theorem size_le_of_mem_abortAt {c : Node σ} {ns : List (Node σ)} {index : Nat} {env : Env ω}
    (h : c ∈ (abortAt B ns index env).1) : c.size ≤ sizes ns := by
  have hs := List.mem_map_of_mem (f := size) h
  rw [map_size_abortAt, List.mem_map] at hs
  obtain ⟨d, hd, hdc⟩ := hs
  rw [← hdc]
  exact size_le_sizes hd

/-! ### Loops over children -/

variable {run : Node σ → Env ω → Step σ ω} {pass : Status}

/-- Where the first node passes, a scan goes on with the others. -/
theorem scan_cons_of_pass {c : Node σ} {rest : List (Node σ)} {env : Env ω}
    (h : (run c env).status = pass) :
    scan run pass (c :: rest) env =
      let r := scan run pass rest (run c env).env
      ⟨r.status, r.passed + 1, (run c env).node :: r.children, r.env⟩ := by
  simp [scan, h]

/-- Where the first node does not pass, a scan ends with its answer. -/
theorem scan_cons_of_ne {c : Node σ} {rest : List (Node σ)} {env : Env ω}
    (h : (run c env).status ≠ pass) :
    scan run pass (c :: rest) env =
      ⟨(run c env).status, 0, (run c env).node :: rest, (run c env).env⟩ := by
  simp [scan, h]

/-! ### Composites that probe earlier children -/

/-- Probes the children before the one to resume at: the first hit, and the surroundings after. -/
def probeBefore (B : Behavior ο σ ω) (flag : Flags → Bool) (wanted : Status) (resume : Nat)
    (children : List (Node σ)) (env : Env ω) : Option Nat × Env ω :=
  let r := probe B flag wanted (children.take (min resume children.length)) env.board env.world
  (r.1, { env with world := r.2 })

/-- A sequencer fails on a hit among the earlier children, and resumes otherwise. -/
theorem workSequencer_eq (B : Behavior ο σ ω) (run : Node σ → Env ω → Step σ ω) (resume : Nat)
    (children : List (Node σ)) (env : Env ω) :
    workSequencer B run resume children env =
      match (probeBefore B (·.reEvaluate) .failure resume children env).1 with
      | some _ => ⟨.failure, min resume children.length, children,
          (probeBefore B (·.reEvaluate) .failure resume children env).2⟩
      | none => scanFrom run .success (min resume children.length) children
          (probeBefore B (·.reEvaluate) .failure resume children env).2 := rfl

/-- A selector turns to a hit among the earlier children, and resumes otherwise. -/
theorem workSelector_eq (B : Behavior ο σ ω) (run : Node σ → Env ω → Step σ ω) (resume : Nat)
    (children : List (Node σ)) (env : Env ω) :
    workSelector B run resume children env =
      match (probeBefore B (·.hijack) .success resume children env).1 with
      | some first =>
        let a := abortAt B children (min resume children.length)
          (probeBefore B (·.hijack) .success resume children env).2
        scanFrom run .failure first a.1 a.2
      | none => scanFrom run .failure (min resume children.length) children
          (probeBefore B (·.hijack) .success resume children env).2 := rfl

/-- A hit lies before the child to resume at. -/
theorem probeBefore_lt {flag : Flags → Bool} {wanted : Status} {resume : Nat}
    {children : List (Node σ)} {env : Env ω} {k : Nat}
    (h : (probeBefore B flag wanted resume children env).1 = some k) :
    k < min resume children.length := by
  unfold probeBefore at h
  have hk := probe_lt h
  simpa using hk

/-- Where no child has the flag, none is probed. -/
theorem probeBefore_of_unflagged {flag : Flags → Bool} {children : List (Node σ)}
    (h : ∀ c ∈ children, flag c.flags = false) (wanted : Status) (resume : Nat) (env : Env ω) :
    probeBefore B flag wanted resume children env = (none, env) := by
  have hprobe (ms : List (Node σ)) (hms : ∀ c ∈ ms, flag c.flags = false) :
      probe B flag wanted ms env.board env.world = (none, env.world) := by
    induction ms with
    | nil => rfl
    | cons m rest ih =>
      have hm : flag m.flags = false := hms m List.mem_cons_self
      simp [probe, hm, ih fun c hc ↦ hms c (List.mem_cons_of_mem _ hc)]
  unfold probeBefore
  rw [hprobe _ fun c hc ↦ h c (List.mem_of_mem_take hc)]

/-! ### Loops of a decorator -/

/-- A loop that has reached its limit succeeds and leaves the child alone. -/
theorem workDecorator_loop_of_reached {memory : Memory} {limit : Option UInt32} {child : Node σ}
    {env : Env ω} (h : memory.reached limit = true) :
    workDecorator B run (.loop limit) memory child env = (⟨.success, child, env⟩, memory) := by
  simp [workDecorator, h]

/-- A loop below its limit is suspended with its child. -/
theorem workDecorator_loop_of_running {memory : Memory} {limit : Option UInt32} {child : Node σ}
    {env : Env ω} (hm : memory.reached limit = false) (h : (run child env).status = .running) :
    workDecorator B run (.loop limit) memory child env = (run child env, memory) := by
  simp [workDecorator, hm, h]

/-- A loop below its limit counts a child that came to an end, and aborts it. -/
theorem workDecorator_loop_of_ne_running {memory : Memory} {limit : Option UInt32}
    {child : Node σ} {env : Env ω} (hm : memory.reached limit = false)
    (h : (run child env).status ≠ .running) :
    workDecorator B run (.loop limit) memory child env =
      (⟨if memory.counted.reached limit then .success else .running,
        ((run child env).node.abort B (run child env).env).1,
        ((run child env).node.abort B (run child env).env).2⟩, memory.counted) := by
  simp [workDecorator, hm, h]

end Node

end BehaviorTree
