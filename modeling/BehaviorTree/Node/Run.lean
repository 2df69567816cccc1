import BehaviorTree.Node.Evaluate
import BehaviorTree.Node.Stop

/-!
# Running nodes

One run starts a node that is not started, lets it work for one tick, and stops it when the work
came to an end. A sequencer and a selector share one loop, `scan`, that runs children in order as
long as they give the answer that passes: success for the one, failure for the other. `run_eq`
says what one run of any node does in terms of the runs of its children.
-/

namespace BehaviorTree

variable {ο σ ω : Type}

/-- The result of running a node. -/
structure Step (σ ω : Type) where
  status : Status
  node : Node σ
  env : Env ω

/-- The result of running children in order: how many passed before one did not. -/
structure Scan (σ ω : Type) where
  status : Status
  passed : Nat
  children : List (Node σ)
  env : Env ω

/-- The result of running all children. -/
structure Sweep (σ ω : Type) where
  statuses : List Status
  children : List (Node σ)
  env : Env ω

/-- Whether the answers of one tick complete a parallel node. -/
def ParallelMode.completes : ParallelMode → List Status → Bool
  | .never, _ => false
  | .untilAnyComplete, answers => answers.any (·.isTerminal)
  | .untilAnyFailure, answers => answers.any (·.isFailure)
  | .untilAnySuccess, answers => answers.any (·.isSuccess)

/-- The count of completed activations, which stays at the largest word. -/
def Memory.counted (m : Memory) : Memory :=
  { m with count := if m.count = 0xffffffff then m.count else m.count + 1 }

/-- Whether a limited loop has completed its child often enough. -/
def Memory.reached (m : Memory) : Option UInt32 → Bool
  | none => false
  | some limit => limit ≤ m.count

namespace Node

/-- Runs nodes in order as long as they answer `pass`. -/
def scan (run : Node σ → Env ω → Step σ ω) (pass : Status) :
    List (Node σ) → Env ω → Scan σ ω
  | [], env => ⟨pass, 0, [], env⟩
  | c :: rest, env =>
    let s := run c env
    if s.status = pass then
      let r := scan run pass rest s.env
      ⟨r.status, r.passed + 1, s.node :: r.children, r.env⟩
    else ⟨s.status, 0, s.node :: rest, s.env⟩

/-- Runs nodes in order from an index on. -/
def scanFrom (run : Node σ → Env ω → Step σ ω) (pass : Status) (index : Nat)
    (children : List (Node σ)) (env : Env ω) : Scan σ ω :=
  let r := scan run pass (children.drop index) env
  { r with passed := index + r.passed, children := children.take index ++ r.children }

/-- Runs all nodes in order. -/
def sweep (run : Node σ → Env ω → Step σ ω) : List (Node σ) → Env ω → Sweep σ ω
  | [], env => ⟨[], [], env⟩
  | c :: rest, env =>
    let s := run c env
    let r := sweep run rest s.env
    ⟨s.status :: r.statuses, s.node :: r.children, r.env⟩

/-- Starts a node that is not started. -/
def begin (B : Behavior ο σ ω) (n : Node σ) (env : Env ω) : Node σ × Env ω :=
  if n.started then (n, env)
  else
    match n with
    | leaf tag life state =>
      let e := B.start state env.board env.world
      (leaf tag { life with started := true } e.state, env.after e)
    | composite tag life kind _ children =>
      (composite tag { life with started := true } kind 0 children, env)
    | decorator tag life kind memory child =>
      (decorator tag { life with started := true } kind { memory with count := 0 } child, env)

/-- One tick of work of a sequencer: earlier children that ask for it are checked again, then the
children run from the one to resume at. -/
def workSequencer (B : Behavior ο σ ω) (run : Node σ → Env ω → Step σ ω) (resume : Nat)
    (children : List (Node σ)) (env : Env ω) : Scan σ ω :=
  let index := min resume children.length
  let r := probe B (·.reEvaluate) .failure (children.take index) env.board env.world
  let env := { env with world := r.2 }
  match r.1 with
  | some _ => ⟨.failure, index, children, env⟩
  | none => scanFrom run .success index children env

/-- One tick of work of a selector: an earlier child may take over from the one to resume at,
which is then aborted; the children run from there. -/
def workSelector (B : Behavior ο σ ω) (run : Node σ → Env ω → Step σ ω) (resume : Nat)
    (children : List (Node σ)) (env : Env ω) : Scan σ ω :=
  let index := min resume children.length
  let r := probe B (·.hijack) .success (children.take index) env.board env.world
  let env := { env with world := r.2 }
  match r.1 with
  | some first =>
    let a := abortAt B children index env
    scanFrom run .failure first a.1 a.2
  | none => scanFrom run .failure index children env

/-- One tick of work of a parallel node; without children there is nothing to wait for. -/
def workParallel (run : Node σ → Env ω → Step σ ω) (mode : ParallelMode)
    (children : List (Node σ)) (env : Env ω) : Sweep σ ω × Status :=
  let r := sweep run children env
  (r, if children.isEmpty || mode.completes r.statuses then .success else .running)

/-- One tick of work of a decorator with a child. -/
def workDecorator (B : Behavior ο σ ω) (run : Node σ → Env ω → Step σ ω) (kind : DecoratorKind)
    (memory : Memory) (child : Node σ) (env : Env ω) : Step σ ω × Memory :=
  match kind with
  | .invert => let s := run child env; ({ s with status := s.status.invert }, memory)
  | .succeeder => let s := run child env; ({ s with status := s.status.forgive }, memory)
  | .loop limit =>
    if memory.reached limit then (⟨.success, child, env⟩, memory)
    else
      let s := run child env
      if s.status = .running then (s, memory)
      else
        let a := s.node.abort B s.env
        let memory := memory.counted
        (⟨if memory.reached limit then .success else .running, a.1, a.2⟩, memory)
  | .scoped =>
    let s := run child (env.enter memory)
    ({ s with env := env.leave s.env }, memory.keep env.board.id s.env.board.scope)

/-- One tick of work of a node, given how its children run. -/
def work (B : Behavior ο σ ω) (run : Node σ → Env ω → Step σ ω) (n : Node σ) (env : Env ω) :
    Step σ ω :=
  match n with
  | leaf tag life state =>
    let r := B.run state env.board env.world
    ⟨r.1, leaf tag life r.2.state, env.after r.2⟩
  | composite tag life .sequencer resume children =>
    let r := workSequencer B run resume children env
    ⟨r.status, composite tag life .sequencer r.passed r.children, r.env⟩
  | composite tag life .selector resume children =>
    let r := workSelector B run resume children env
    ⟨r.status, composite tag life .selector r.passed r.children, r.env⟩
  | composite tag life (.parallel mode) resume children =>
    let r := workParallel run mode children env
    ⟨r.2, composite tag life (.parallel mode) resume r.1.children, r.1.env⟩
  | decorator tag life kind memory none => ⟨.success, decorator tag life kind memory none, env⟩
  | decorator tag life kind memory (some child) =>
    let r := workDecorator B run kind memory child env
    ⟨r.1.status, decorator tag life kind r.2 (some r.1.node), r.1.env⟩

/-- Records the answer of a tick of work and stops a node that came to an end. -/
def settle (B : Behavior ο σ ω) (s : Step σ ω) : Step σ ω :=
  if s.status.isTerminal then
    let r := s.node.stop B s.env
    ⟨s.status, r.1.withLife ⟨.ofStatus s.status, false⟩, r.2⟩
  else { s with node := s.node.withLife ⟨.ofStatus s.status, true⟩ }

/-- One run of a node, given how its children run. -/
def advance (B : Behavior ο σ ω) (run : Node σ → Env ω → Step σ ω) (n : Node σ) (env : Env ω) :
    Step σ ω :=
  let r := n.begin B env
  settle B (r.1.work B run r.2)

/-- One run of a node that is nested at most `fuel` deep. -/
def runWithin (B : Behavior ο σ ω) : (fuel : Nat) → Node σ → Env ω → Step σ ω
  | 0, n, env => ⟨.running, n, env⟩
  | fuel + 1, n, env => n.advance B (runWithin B fuel) env

/-- Advances a node by one tick; a node is nested at most as deep as it is large. -/
def run (B : Behavior ο σ ω) (n : Node σ) (env : Env ω) : Step σ ω := runWithin B n.size n env

private theorem scan_congr {f g : Node σ → Env ω → Step σ ω} {pass : Status} {ns : List (Node σ)}
    (h : ∀ c ∈ ns, ∀ env, f c env = g c env) (env : Env ω) :
    scan f pass ns env = scan g pass ns env := by
  induction ns generalizing env with
  | nil => rfl
  | cons c rest ih =>
    have hc := h c (by simp)
    have hr := ih fun d hd => h d (by simp [hd])
    simp only [scan, hc, hr]

private theorem scanFrom_congr {f g : Node σ → Env ω → Step σ ω} {pass : Status} {index : Nat}
    {ns : List (Node σ)} (h : ∀ c ∈ ns, ∀ env, f c env = g c env) (env : Env ω) :
    scanFrom f pass index ns env = scanFrom g pass index ns env := by
  unfold scanFrom
  rw [scan_congr fun c hc => h c (List.mem_of_mem_drop hc)]

private theorem sweep_congr {f g : Node σ → Env ω → Step σ ω} {ns : List (Node σ)}
    (h : ∀ c ∈ ns, ∀ env, f c env = g c env) (env : Env ω) :
    sweep f ns env = sweep g ns env := by
  induction ns generalizing env with
  | nil => rfl
  | cons c rest ih =>
    have hc := h c (by simp)
    have hr := ih fun d hd => h d (by simp [hd])
    simp only [sweep, hc, hr]

/-- Starting keeps the sizes of the children. -/
theorem children_begin (B : Behavior ο σ ω) (n : Node σ) (env : Env ω) :
    (n.begin B env).1.children = n.children := by
  unfold begin
  split
  · rfl
  · cases n <;> rfl

/-- One run depends on how nodes run only through nodes that are smaller than the node itself. -/
theorem advance_congr {B : Behavior ο σ ω} {f g : Node σ → Env ω → Step σ ω} {n : Node σ}
    (h : ∀ c : Node σ, c.size < n.size → ∀ env, f c env = g c env) (env : Env ω) :
    n.advance B f env = n.advance B g env := by
  have hs : (n.begin B env).1.size = n.size := by simp only [size_eq, children_begin]
  rw [← hs] at h
  unfold advance
  generalize n.begin B env = r at h
  obtain ⟨m, env⟩ := r
  refine congrArg (settle B) ?_
  cases m with
  | leaf => rfl
  | composite tag life kind resume children =>
    have hm : ∀ c ∈ children, ∀ env, f c env = g c env := fun c hc =>
      h c (size_lt_of_mem_children (by simpa [Node.children] using hc))
    have ha : ∀ index env, ∀ c ∈ (abortAt B children index env).1, ∀ env, f c env = g c env := by
      intro index env c hc
      have hc := List.mem_map_of_mem (f := size) hc
      rw [map_size_abortAt, List.mem_map] at hc
      obtain ⟨d, hd, hdc⟩ := hc
      apply h
      rw [← hdc]
      exact size_lt_of_mem_children (by simpa [Node.children] using hd)
    cases kind with
    | sequencer =>
      simp only [work, workSequencer]
      split <;> simp only [scanFrom_congr hm]
    | selector =>
      simp only [work, workSelector]
      split
      · simp only [scanFrom_congr (ha _ _)]
      · simp only [scanFrom_congr hm]
    | parallel mode => simp only [work, workParallel, sweep_congr hm]
  | decorator tag life kind memory child =>
    cases child with
    | none => rfl
    | some child =>
      have hc := h child (size_lt_of_mem_children (by simp [Node.children]))
      simp only [work, workDecorator, hc]

/-- Fuel beyond the size of a node changes nothing. -/
theorem runWithin_congr {B : Behavior ο σ ω} {n : Node σ} {a b : Nat} (ha : n.size ≤ a)
    (hb : n.size ≤ b) (env : Env ω) : runWithin B a n env = runWithin B b n env := by
  induction a generalizing n b env with
  | zero => have := n.size_pos; omega
  | succ a ih =>
    cases b with
    | zero => have := n.size_pos; omega
    | succ b => exact advance_congr (fun c hc env => ih (by omega) (by omega) env) env

/-- One run of a node, in terms of the runs of its children. -/
theorem run_eq (B : Behavior ο σ ω) (n : Node σ) (env : Env ω) :
    n.run B env = n.advance B (run B) env :=
  (runWithin_congr (Nat.le_refl _) (Nat.le_succ _) env).trans
    (advance_congr (fun _ hc env => runWithin_congr (Nat.le_of_lt hc) (Nat.le_refl _) env) env)

end Node

end BehaviorTree
