import BehaviorTree.Proofs.Node.Moved
import BehaviorTree.Proofs.Node.Turns

/-!
# The ticks of a parallel node

A parallel node runs all its children in each tick, whatever they answer. When their answers
complete it, it aborts those that would have to be resumed. So a child that came to an end begins a
new activation in the next tick, and none is left started when the node comes to an end itself.
-/

namespace BehaviorTree

variable {ο σ ω : Type}

/-- Whether the answers of one tick complete a parallel node. -/
def ParallelMode.CompletedBy : ParallelMode → List Status → Prop
  | .never, _ => False
  | .untilAnyComplete, answers => ∃ answer ∈ answers, answer ≠ .running
  | .untilAnyFailure, answers => .failure ∈ answers
  | .untilAnySuccess, answers => .success ∈ answers

private theorem ParallelMode.completes_iff (mode : ParallelMode) (answers : List Status) :
    mode.completes answers = true ↔ mode.CompletedBy answers := by
  cases mode <;>
    simp [completes, CompletedBy, Status.isTerminal_iff, Status.isFailure, Status.isSuccess]

namespace Node

/-- A node whose life is in step: it is started exactly if its last run suspended it. -/
def InStep (n : Node σ) : Prop := n.started = true ↔ n.state = .running

/-- The runs of all children from an index on, in order, with their answers. -/
def runDeeds (first : Nat) (ns : List (Node σ)) (answers : List Status) : List Deed :=
  ((ns.zip answers).zipIdx first).map fun x ↦ .run x.2 (!x.1.1.started) x.1.2

/-- The aborts of those children from an index on of which an activation is open, in order. -/
def abortDeeds (first : Nat) (isOpen : List Bool) : List Deed :=
  (isOpen.zipIdx first).filterMap fun x ↦ if x.1 then some (.abort x.2) else none

/-- What a parallel node does to its children in a tick. -/
def parallelDeeds (B : Behavior ο σ ω) (n : Node σ) (env : Env ω) : List Deed :=
  match n with
  | composite _ _ (.parallel mode) _ ns =>
    let r := workParallel (Node.run B) mode ns env
    runDeeds 0 ns r.1.statuses ++
      if r.2 = .success then abortDeeds 0 (r.1.statuses.map Status.isRunning) else []
  | _ => []

/-- What a parallel node does to its children when it is aborted. -/
def closeDeeds (n : Node σ) : List Deed :=
  if n.started then abortDeeds 0 (n.children.map started) else []

/-- Whether a parallel node comes to another by runs and aborts, with a log of its deeds. -/
inductive Logged (B : Behavior ο σ ω) (n : Node σ) : List Deed → Node σ → Prop where
  | begin : Logged B n [] n
  | run {log : List Deed} {m : Node σ} (h : Logged B n log m) (env : Env ω) :
      Logged B n (log ++ m.parallelDeeds B env) (m.run B env).node
  | abort {log : List Deed} {m : Node σ} (h : Logged B n log m) (env : Env ω) :
      Logged B n (log ++ m.closeDeeds) (m.abort B env).1

/-- How a parallel node over `ns` comes by deeds through a tick in which its children answer. -/
structure ParallelTick (B : Behavior ο σ ω) (mode : ParallelMode) (ns : List (Node σ))
    (env : Env ω) (answers : List Status) (deeds : List Deed) (s : Step σ ω) : Prop where
  length : answers.length = ns.length
  /-- Each child is run once, in order; if the node succeeds, those that answered running are
  aborted then, in order. -/
  deeds_eq : deeds = runDeeds 0 ns answers ++
    if s.status = .success then abortDeeds 0 (answers.map Status.isRunning) else []
  /-- The deeds make of the children what they are after the tick. -/
  doing : Doing B deeds ns env s.node.children s.env
  success_iff : s.status = .success ↔ mode.CompletedBy answers
  /-- Otherwise it is suspended; it never fails. -/
  running_iff : s.status = .running ↔ ¬ mode.CompletedBy answers
  /-- While the node is suspended, those children are started that answered running. -/
  suspended : s.status = .running → s.node.children.map started = answers.map Status.isRunning
  /-- When it succeeds, no child is left started. -/
  quiet : s.status = .success → ∀ c ∈ s.node.children, c.started = false

variable {B : Behavior ο σ ω} {n m : Node σ} {ns ms : List (Node σ)}

private theorem inStep_run (n : Node σ) (env : Env ω) : (n.run B env).node.InStep := by
  rw [InStep, started_run, Status.isRunning_iff, state, life_run, NodeState.ofStatus_eq_running_iff]

private theorem inStep_abort (n : Node σ) (env : Env ω) : (n.abort B env).1.InStep := by
  simp [InStep, started, state, Life.fresh]

/-! ### All children -/

private theorem length_statuses_sweep (ns : List (Node σ)) (env : Env ω) :
    (sweep (Node.run B) ns env).statuses.length = ns.length := by
  induction ns generalizing env with
  | nil => rfl
  | cons c rest ih => exact congrArg (· + 1) (ih _)

/-- After all children ran, those are started that answered running. -/
theorem started_sweep (ns : List (Node σ)) (env : Env ω) :
    let r := sweep (Node.run B) ns env
    r.children.map started = r.statuses.map Status.isRunning := by
  induction ns generalizing env with
  | nil => rfl
  | cons c rest ih =>
    simp only [sweep, List.map_cons, started_run]
    exact congrArg (_ :: ·) (ih _)

private theorem inStep_sweep (ns : List (Node σ)) (env : Env ω) :
    ∀ c ∈ (sweep (Node.run B) ns env).children, c.InStep := by
  induction ns generalizing env with
  | nil => exact fun c hc ↦ absurd hc List.not_mem_nil
  | cons d rest ih =>
    intro c hc
    rcases List.mem_cons.mp hc with rfl | hc
    · exact inStep_run d env
    · exact ih _ c hc

/-- All children are run in order, behind those before the index. -/
theorem doing_sweep (before ns : List (Node σ)) (env : Env ω) :
    let r := sweep (Node.run B) ns env
    Doing B (runDeeds before.length ns r.statuses) (before ++ ns) env (before ++ r.children)
      r.env := by
  induction ns generalizing before env with
  | nil => exact .done _ _
  | cons c rest ih =>
    have hc : (before ++ c :: rest)[before.length]? = some c := by simp
    have hset : (before ++ c :: rest).set before.length (c.run B env).node =
        before ++ (c.run B env).node :: rest := by simp
    have hrest := ih (before ++ [(c.run B env).node]) (c.run B env).env
    simp only [List.length_append, List.length_singleton, List.append_assoc,
      List.singleton_append] at hrest
    refine .run hc ?_
    rw [hset]
    exact hrest

/-- Of children whose lives are in step, the started ones are aborted in order. -/
theorem doing_stopRunning (before : List (Node σ)) (hns : ∀ c ∈ ns, c.InStep) (env : Env ω) :
    let r := stopRunning B ns env
    Doing B (abortDeeds before.length (ns.map started)) (before ++ ns) env (before ++ r.1) r.2 := by
  induction ns generalizing before env with
  | nil => exact .done _ _
  | cons c rest ih =>
    have hc : (before ++ c :: rest)[before.length]? = some c := by simp
    have hrest (before : List (Node σ)) (env : Env ω) :=
      ih before (fun d hd ↦ hns d (List.mem_cons_of_mem _ hd)) env
    rw [stopRunning_cons]
    by_cases hs : c.started = true
    · have hrunning : c.state = .running := (hns c List.mem_cons_self).mp hs
      have hset : (before ++ c :: rest).set before.length (c.abort B env).1 =
          before ++ (c.abort B env).1 :: rest := by simp
      have hafter := hrest (before ++ [(c.abort B env).1]) (c.abort B env).2
      have hdeeds : abortDeeds before.length ((c :: rest).map started) =
          .abort before.length :: abortDeeds (before.length + 1) (rest.map started) := by
        simp [abortDeeds, hs]
      rw [hdeeds]
      refine .abort hc hs ?_
      rw [hset]
      simpa [hrunning] using hafter
    · have hrunning : c.state ≠ .running := mt (hns c List.mem_cons_self).mpr hs
      have hafter := hrest (before ++ [c]) env
      have hdeeds : abortDeeds before.length ((c :: rest).map started) =
          abortDeeds (before.length + 1) (rest.map started) := by
        simp [abortDeeds, hs]
      rw [hdeeds]
      simpa [hrunning] using hafter

/-- Children whose lives are in step are not started once the running ones were aborted. -/
theorem started_stopRunning (hns : ∀ c ∈ ns, c.InStep) (env : Env ω) :
    ∀ c ∈ (stopRunning B ns env).1, c.started = false := by
  induction ns generalizing env with
  | nil => exact fun c hc ↦ absurd hc List.not_mem_nil
  | cons d rest ih =>
    intro c hc
    rw [stopRunning_cons] at hc
    rcases List.mem_cons.mp hc with rfl | hc
    · by_cases hs : d.state = .running
      · rw [if_pos hs]
        exact started_abort B d env
      · rw [if_neg hs]
        have hd := mt (hns d List.mem_cons_self).mp hs
        simpa using hd
    · exact ih (fun e he ↦ hns e (List.mem_cons_of_mem _ he)) _ c hc

/-! ### A parallel node -/

variable {tag : Tag} {life : Life} {mode : ParallelMode} {k : Nat}

/-- Once all children ran, a parallel node succeeds and stops those that are running, or it is
suspended. -/
theorem run_parallel_cases (B : Behavior ο σ ω) (tag : Tag) (life : Life) (mode : ParallelMode)
    (k : Nat) (hns : ns ≠ []) (env : Env ω) :
    let n := composite tag life (.parallel mode) k ns
    let r := sweep (Node.run B) ns env
    let stopped := stopRunning B r.children r.env
    (mode.CompletedBy r.statuses ∧
      n.parallelDeeds B env =
        runDeeds 0 ns r.statuses ++ abortDeeds 0 (r.statuses.map Status.isRunning) ∧
      n.run B env = ⟨.success, composite tag ⟨.success, false⟩ (.parallel mode) 0 stopped.1,
        stopped.2⟩) ∨
    (¬ mode.CompletedBy r.statuses ∧ n.parallelDeeds B env = runDeeds 0 ns r.statuses ∧
      ∃ k', n.run B env =
        ⟨.running, composite tag ⟨.running, true⟩ (.parallel mode) k' r.children, r.env⟩) := by
  intro n r stopped
  have hempty : ns.isEmpty = false := by simpa using hns
  obtain ⟨life', k', hbegin⟩ : ∃ life' k',
      n.begin B env = (composite tag life' (.parallel mode) k' ns, env) := by
    unfold begin
    split
    · exact ⟨life, k, rfl⟩
    · exact ⟨_, 0, rfl⟩
  rw [run_eq, advance, hbegin, ← ParallelMode.completes_iff]
  by_cases hc : mode.completes r.statuses = true
  · have hwork : workParallel (Node.run B) mode ns env = (r, .success) := by
      rw [workParallel, hempty, Bool.false_or, if_pos hc]
    refine .inl ⟨hc, ?_, ?_⟩
    · simp only [n, parallelDeeds, hwork, if_true]
    · simp only [work, hwork]
      rw [settle_of_ne_running (by simp)]
      rfl
  · have hwork : workParallel (Node.run B) mode ns env = (r, .running) := by
      rw [workParallel, hempty, Bool.false_or, if_neg hc]
    refine .inr ⟨hc, ?_, k', ?_⟩
    · simp [n, parallelDeeds, hwork]
    · simp only [work, hwork]
      rw [settle_of_running rfl]
      rfl

/-- What a parallel node over some children does in a tick. -/
theorem parallelTick (B : Behavior ο σ ω) (tag : Tag) (life : Life) (mode : ParallelMode) (k : Nat)
    (hns : ns ≠ []) (env : Env ω) :
    let n := composite tag life (.parallel mode) k ns
    ParallelTick B mode ns env (sweep (Node.run B) ns env).statuses (n.parallelDeeds B env)
      (n.run B env) := by
  intro n
  have hlength := length_statuses_sweep (B := B) ns env
  have hstarted := started_sweep (B := B) ns env
  have hsweep := doing_sweep (B := B) [] ns env
  have hinstep := inStep_sweep (B := B) ns env
  rcases run_parallel_cases B tag life mode k hns env with
    ⟨hcompleted, hdeeds, hrun⟩ | ⟨hnot, hdeeds, k', hrun⟩
  · have hstop := doing_stopRunning (B := B) [] hinstep (sweep (Node.run B) ns env).env
    rw [hstarted] at hstop
    rw [hdeeds, hrun]
    exact ⟨hlength, rfl, hsweep.append hstop, iff_of_true rfl hcompleted,
      iff_of_false (by simp) (not_not_intro hcompleted), (fun h ↦ nomatch h),
      fun _ ↦ started_stopRunning hinstep _⟩
  · rw [hdeeds, hrun]
    exact ⟨hlength, (List.append_nil _).symm, hsweep, iff_of_false (by simp) hnot,
      iff_of_true rfl hnot, fun _ ↦ hstarted, fun h ↦ nomatch h⟩

/-- A parallel node that is aborted aborts its started children in order. -/
theorem doing_abort_parallel (tag : Tag) (life : Life) (mode : ParallelMode) (k : Nat)
    (hns : ∀ c ∈ ns, c.InStep) (env : Env ω) :
    let n := composite tag life (.parallel mode) k ns
    Doing B n.closeDeeds ns env (n.abort B env).1.children (n.abort B env).2 := by
  intro n
  by_cases hs : n.started = true
  · rw [abort_of_started hs, closeDeeds, if_pos hs]
    exact doing_stopRunning [] hns env
  · rw [abort_of_not_started (by simpa using hs), closeDeeds, if_neg hs]
    exact .done ns env

/-- The lives of children stay in step. -/
theorem Doing.inStep {deeds : List Deed} {ns' : List (Node σ)} {env env' : Env ω}
    (h : Doing B deeds ns env ns' env') (hns : ∀ c ∈ ns, c.InStep) : ∀ c ∈ ns', c.InStep := by
  induction h with
  | done => exact hns
  | run _ _ ih =>
    refine ih fun c hc ↦ ?_
    rcases List.mem_or_eq_of_mem_set hc with hc | rfl
    · exact hns c hc
    · exact inStep_run _ _
  | abort _ _ _ ih =>
    refine ih fun c hc ↦ ?_
    rcases List.mem_or_eq_of_mem_set hc with hc | rfl
    · exact hns c hc
    · exact inStep_abort _ _

private theorem Moved.logged (h : n.Moved B m) : ∃ log, n.Logged B log m := by
  induction h with
  | refl => exact ⟨[], .begin⟩
  | run _ env ih =>
    obtain ⟨log, hlog⟩ := ih
    exact ⟨_, hlog.run env⟩
  | abort _ env ih =>
    obtain ⟨log, hlog⟩ := ih
    exact ⟨_, hlog.abort env⟩

/-- What a log of deeds tells of a parallel node that was once over `ns`. -/
structure ParallelLog (tag : Tag) (mode : ParallelMode) (ns : List (Node σ)) (log : List Deed)
    (m : Node σ) : Prop where
  inTurn : InTurn (openAt ns) log
  shape : ∃ life k, m = composite tag life (.parallel mode) k m.children
  nonempty : m.children ≠ []
  inStep : ∀ c ∈ m.children, c.InStep
  openAt_eq : openAt m.children = openAfter (openAt ns) log

/-- Deeds with which a node moves on go on with the log. -/
theorem ParallelLog.goesOn {log deeds : List Deed} {m' : Node σ} {env env' : Env ω}
    (h : ParallelLog tag mode ns log m) (hm : m.Moved B m')
    (hdoing : Doing B deeds m.children env m'.children env') :
    ParallelLog tag mode ns (log ++ deeds) m' := by
  obtain ⟨life, k, heq⟩ := h.shape
  rw [heq] at hm
  obtain ⟨life', k', ms, rfl, hlength⟩ := hm.exists_composite
  have hne : ms ≠ [] := by
    rw [← List.length_pos_iff, hlength, List.length_pos_iff]
    exact h.nonempty
  refine ⟨h.inTurn.append ?_, ⟨life', k', rfl⟩, hne, hdoing.inStep h.inStep, ?_⟩
  · rw [← h.openAt_eq]
    exact hdoing.inTurn
  · rw [hdoing.openAt_eq, h.openAt_eq, openAfter_append]

/-- A tick of a parallel node of which there is a log. -/
theorem ParallelLog.tick {log : List Deed} (h : ParallelLog tag mode ns log m) (env : Env ω) :
    ParallelTick B mode m.children env (sweep (Node.run B) m.children env).statuses
      (m.parallelDeeds B env) (m.run B env) := by
  obtain ⟨life, k, heq⟩ := h.shape
  have htick := parallelTick B tag life mode k h.nonempty env
  rwa [← heq] at htick

/-- An abort of one. -/
theorem ParallelLog.close {log : List Deed} (h : ParallelLog tag mode ns log m) (env : Env ω) :
    Doing B m.closeDeeds m.children env (m.abort B env).1.children (m.abort B env).2 := by
  obtain ⟨life, k, heq⟩ := h.shape
  have hdoing := doing_abort_parallel (B := B) tag life mode k h.inStep env
  rwa [← heq] at hdoing

/-- Whatever became of a parallel node, its log of deeds is in turn and tells which of its children
are started. -/
theorem Logged.spec {log : List Deed} (hns : ns ≠ []) (hinstep : ∀ c ∈ ns, c.InStep)
    (h : (composite tag life (.parallel mode) k ns).Logged B log m) :
    ParallelLog tag mode ns log m := by
  induction h with
  | begin => exact ⟨trivial, ⟨life, k, rfl⟩, hns, hinstep, rfl⟩
  | run _ env ih => exact ih.goesOn (Moved.refl.run env) (ih.tick env).doing
  | abort _ env ih => exact ih.goesOn (Moved.refl.abort env) (ih.close env)

end Node

namespace Tree

open Node

/-- A parallel node over some children, anywhere in a tree. What is done with the tree comes down to
runs and aborts of the node, whose deeds make a log. The log is in turn: a child begins a new
activation when it is run and none is open, as after a tick in which it came to an end. Whatever the
log, a further tick is as `ParallelTick` says, and an abort closes what is open. -/
theorem parallel_ticks (B : Behavior ο σ ω) {t : Tree ο σ} {path : List Nat} {tag : Tag}
    {life : Life} {mode : ParallelMode} {k : Nat} {ns : List (Node σ)}
    (hn : t.root.at? path = some (composite tag life (.parallel mode) k ns)) (hns : ns ≠ [])
    (hinstep : ∀ c ∈ ns, c.InStep) :
    let n := composite tag life (.parallel mode) k ns
    (∀ calls : List (Call ω), ∃ log m,
      (t.serveAll B calls).tree.root.at? path = some m ∧ n.Logged B log m) ∧
    ∀ log m, n.Logged B log m → InTurn (openAt ns) log ∧
      ∃ life k ms, m = composite tag life (.parallel mode) k ms ∧
        openAt ms = openAfter (openAt ns) log ∧
        (∀ env, ∃ answers,
          ParallelTick B mode ms env answers (m.parallelDeeds B env) (m.run B env)) ∧
        ∀ env, Doing B m.closeDeeds ms env (m.abort B env).1.children (m.abort B env).2 := by
  intro n
  constructor
  · intro calls
    obtain ⟨m, hm, hmoved⟩ := moved_serveAll B hn calls
    obtain ⟨log, hlog⟩ := hmoved.logged
    exact ⟨log, m, hm, hlog⟩
  · intro log m hlog
    have hspec : ParallelLog tag mode ns log m := hlog.spec hns hinstep
    obtain ⟨life', k', heq⟩ := hspec.shape
    exact ⟨hspec.inTurn, life', k', m.children, heq, hspec.openAt_eq,
      fun env ↦ ⟨_, hspec.tick env⟩, hspec.close⟩

/-- Two waits side by side, of which the first is over at once and begins again. -/
theorem parallel_ticks_waits :
    let quick := Node.newLeaf (.plain (.ofNat 1) "quick") (Leaf.wait (.ofSeconds 0))
    let slow := Node.newLeaf (.plain (.ofNat 2) "slow") (Leaf.wait (.ofSeconds 1))
    let waits := Node.newComposite (.plain (.ofNat 0) "waits") (.parallel .untilAnyFailure)
      [quick, slow]
    let t : Tree Owner Leaf := ⟨waits, [], none, false, none⟩
    t.root.at? [] = some waits ∧ [quick, slow] ≠ [] ∧ (∀ c ∈ [quick, slow], c.InStep) ∧
      ∀ log m, waits.Logged Leaf.behavior log m → InTurn (openAt [quick, slow]) log ∧
        ∃ life k ms, m = composite waits.tag life (.parallel .untilAnyFailure) k ms ∧
          openAt ms = openAfter (openAt [quick, slow]) log ∧
          (∀ env, ∃ answers, ParallelTick Leaf.behavior .untilAnyFailure ms env answers
            (m.parallelDeeds Leaf.behavior env) (m.run Leaf.behavior env)) ∧
          ∀ env, Doing Leaf.behavior m.closeDeeds ms env (m.abort Leaf.behavior env).1.children
            (m.abort Leaf.behavior env).2 := by
  intro quick slow waits t
  have hwaits : t.root.at? [] = some waits := rfl
  have hne : [quick, slow] ≠ [] := by simp
  have hinstep : ∀ c ∈ [quick, slow], c.InStep := by
    intro c hc
    have hlife : c.life = .fresh := by
      rcases List.mem_pair.mp hc with rfl | rfl
      · rfl
      · rfl
    simp [InStep, started, state, hlife, Life.fresh]
  exact ⟨hwaits, hne, hinstep, (parallel_ticks Leaf.behavior hwaits hne hinstep).2⟩

end Tree

end BehaviorTree
