import BehaviorTree.Proofs.Node.Recast
import BehaviorTree.Proofs.Node.Step

/-!
# Projections

Hooks may keep more than other hooks do, in the states of leaves or in the world, and otherwise do
the same. Then nodes over the richer hooks project onto nodes over the plainer ones, and every
operation of the engine commutes with the projection: `run_map` for a run, `abort_map` for an
abort.
-/

namespace BehaviorTree

variable {ο σ τ ω ψ : Type}

/-- An effect seen through projections of leaf states and worlds. -/
def Effect.map (f : σ → τ) (g : ω → ψ) (e : Effect σ ω) : Effect τ ψ :=
  ⟨f e.state, e.entries, g e.world⟩

/-- Surroundings seen through a projection of worlds. -/
def Env.map (g : ω → ψ) (env : Env ω) : Env ψ := ⟨⟨g env.world, env.fresh⟩, env.board⟩

/-- A step seen through projections of leaf states and worlds. -/
def Step.map (f : σ → τ) (g : ω → ψ) (s : Step σ ω) : Step τ ψ :=
  ⟨s.status, s.node.map f, s.env.map g⟩

/-- A scan seen through projections of leaf states and worlds. -/
def Scan.map (f : σ → τ) (g : ω → ψ) (r : Scan σ ω) : Scan τ ψ :=
  ⟨r.status, r.passed, r.children.map (Node.map f), r.env.map g⟩

/-- A sweep seen through projections of leaf states and worlds. -/
def Sweep.map (f : σ → τ) (g : ω → ψ) (r : Sweep σ ω) : Sweep τ ψ :=
  ⟨r.statuses, r.children.map (Node.map f), r.env.map g⟩

/-- Hooks that do what other hooks do to the projections of leaf states and worlds. -/
structure Behavior.Projects (A : Behavior ο σ ω) (B : Behavior ο τ ψ) (f : σ → τ) (g : ω → ψ) :
    Prop where
  awake : ∀ owner s w,
    B.awake owner (f s) (g w) = ((A.awake owner s w).1.map f, g (A.awake owner s w).2)
  start : ∀ s b w, B.start (f s) b (g w) = (A.start s b w).map f g
  run : ∀ s b w, B.run (f s) b (g w) = ((A.run s b w).1, (A.run s b w).2.map f g)
  stop : ∀ s b w, B.stop (f s) b (g w) = (A.stop s b w).map f g
  evaluate : ∀ s b w, B.evaluate (f s) b (g w) = ((A.evaluate s b w).1, g (A.evaluate s b w).2)

/-- Hooks do what they do. -/
theorem Behavior.projects_self (B : Behavior ο σ ω) : B.Projects B (fun s ↦ s) fun w ↦ w where
  awake owner s w := by
    cases B.awake owner s w with
    | mk r w' => cases r <;> rfl
  start _ _ _ := rfl
  run _ _ _ := rfl
  stop _ _ _ := rfl
  evaluate _ _ _ := rfl

/-- Another world leaves the blackboard. -/
@[simp] theorem Env.board_map (g : ω → ψ) (env : Env ω) : (env.map g).board = env.board := rfl

/-- The world is the projected one. -/
@[simp] theorem Env.world_map (g : ω → ψ) (env : Env ω) : (env.map g).world = g env.world := rfl

private theorem Env.after_map (f : σ → τ) (g : ω → ψ) (env : Env ω) (e : Effect σ ω) :
    (env.map g).after (e.map f g) = (env.after e).map g := rfl

private theorem Env.enter_map (g : ω → ψ) (env : Env ω) (m : Memory) :
    (env.map g).enter m = (env.enter m).map g := by
  unfold enter
  rw [board_map]
  cases m.keptScope env.board.id <;> rfl

private theorem Env.leave_map (g : ω → ψ) (outer inner : Env ω) :
    (outer.map g).leave (inner.map g) = (outer.leave inner).map g := rfl

namespace Node

section

variable {f : σ → τ}

/-- A leaf with another state is a leaf. -/
@[simp] theorem map_leaf (tag : Tag) (life : Life) (state : σ) :
    (leaf tag life state).map f = leaf tag life (f state) := rfl

/-- A composite with other leaf states is a composite of the children with theirs. -/
@[simp] theorem map_composite (tag : Tag) (life : Life) (kind : CompositeKind) (resume : Nat)
    (children : List (Node σ)) :
    (composite tag life kind resume children).map f =
      composite tag life kind resume (children.map (map f)) :=
  recast_composite ..

/-- A decorator with other leaf states is a decorator of the child with its own. -/
@[simp] theorem map_decorator (tag : Tag) (life : Life) (kind : DecoratorKind) (memory : Memory)
    (child : Option (Node σ)) :
    (decorator tag life kind memory child).map f =
      decorator tag life kind memory (child.map (map f)) :=
  recast_decorator ..

/-- Other leaf states leave the tag. -/
@[simp] theorem tag_map (n : Node σ) : (n.map f).tag = n.tag := tag_recast n

/-- Other leaf states leave the life. -/
@[simp] theorem life_map (n : Node σ) : (n.map f).life = n.life := life_recast n

/-- Other leaf states leave whether a node is started. -/
@[simp] theorem started_map (n : Node σ) : (n.map f).started = n.started := by simp [started]

/-- Other leaf states leave the state of a node. -/
@[simp] theorem state_map (n : Node σ) : (n.map f).state = n.state := by simp [state]

/-- Other leaf states leave the flags. -/
@[simp] theorem flags_map (n : Node σ) : (n.map f).flags = n.flags := by simp [flags]

/-- Another life and other leaf states can be put in in either order. -/
@[simp] theorem withLife_map (n : Node σ) (life : Life) :
    (n.map f).withLife life = (n.withLife life).map f := by
  cases n <;> simp [withLife]

end

variable {A : Behavior ο σ ω} {B : Behavior ο τ ψ} {f : σ → τ} {g : ω → ψ}

/-! ### Probing -/

private theorem evaluate_map (h : A.Projects B f g) (n : Node σ) (b : Blackboard) (w : ω) :
    (n.map f).evaluate B b (g w) = ((n.evaluate A b w).1, g (n.evaluate A b w).2) := by
  induction n using child_induction generalizing b w with
  | step n ih =>
    cases n with
    | leaf => exact h.evaluate _ _ _
    | composite => simp [evaluate]
    | decorator tag life kind memory child =>
      cases child with
      | none => rfl
      | some child =>
        have hc := ih child (by simp [children])
        cases kind <;> simp [evaluate, hc]

private theorem probe_map (h : A.Projects B f g) (flag : Flags → Bool) (wanted : Status)
    (ns : List (Node σ)) (b : Blackboard) (w : ω) :
    probe B flag wanted (ns.map (map f)) b (g w) =
      ((probe A flag wanted ns b w).1, g (probe A flag wanted ns b w).2) := by
  induction ns generalizing w with
  | nil => rfl
  | cons c rest ih =>
    simp only [List.map_cons, probe, flags_map, evaluate_map h, ih]
    split
    · split <;> rfl
    · rfl

private theorem probeBefore_map (h : A.Projects B f g) (flag : Flags → Bool) (wanted : Status)
    (resume : Nat) (ns : List (Node σ)) (env : Env ω) :
    probeBefore B flag wanted resume (ns.map (map f)) (env.map g) =
      ((probeBefore A flag wanted resume ns env).1,
        (probeBefore A flag wanted resume ns env).2.map g) := by
  simp only [probeBefore, List.length_map, ← List.map_take, Env.board_map, Env.world_map,
    probe_map h]
  rfl

/-! ### Stopping -/

/-- An outcome of stopping, seen through projections of leaf states and worlds. -/
def mapStopped (f : σ → τ) (g : ω → ψ) (r : Node σ × Env ω) : Node τ × Env ψ :=
  (r.1.map f, r.2.map g)

/-- An outcome of stopping several nodes, seen through the projections. -/
def mapAllStopped (f : σ → τ) (g : ω → ψ) (r : List (Node σ) × Env ω) : List (Node τ) × Env ψ :=
  (r.1.map (map f), r.2.map g)

/-- Aborting commutes with a projection if stopping does. -/
theorem abort_map_of_stop {n : Node σ} {env : Env ω}
    (h : (n.map f).stop B (env.map g) = mapStopped f g (n.stop A env)) :
    (n.map f).abort B (env.map g) = mapStopped f g (n.abort A env) := by
  cases hs : n.started with
  | true =>
    rw [abort_of_started hs, abort_of_started (by simpa using hs), h]
    simp [mapStopped]
  | false =>
    rw [abort_of_not_started hs, abort_of_not_started (by simpa using hs)]
    simp [mapStopped]

private theorem stopRunning_map {ns : List (Node σ)}
    (ih : ∀ c ∈ ns, ∀ env, (c.map f).abort B (env.map g) = mapStopped f g (c.abort A env))
    (env : Env ω) :
    stopRunning B (ns.map (map f)) (env.map g) = mapAllStopped f g (stopRunning A ns env) := by
  induction ns generalizing env with
  | nil => rfl
  | cons c rest rest_ih =>
    have hrest := rest_ih fun d hd ↦ ih d (by simp [hd])
    simp only [List.map_cons, stopRunning_cons, state_map]
    by_cases hs : c.state = .running
    · simp only [hs, if_true, ih c (by simp), mapStopped, hrest]
      rfl
    · simp only [hs, if_false, hrest]
      rfl

private theorem stopRunningAt_map {ns : List (Node σ)}
    (ih : ∀ c ∈ ns, ∀ env, (c.map f).abort B (env.map g) = mapStopped f g (c.abort A env))
    (index : Nat) (env : Env ω) :
    stopRunningAt B (ns.map (map f)) index (env.map g) =
      mapAllStopped f g (stopRunningAt A ns index env) := by
  induction ns generalizing index with
  | nil => rfl
  | cons c rest rest_ih =>
    cases index with
    | zero =>
      simp only [List.map_cons, stopRunningAt_zero, state_map]
      by_cases hs : c.state = .running
      · simp only [hs, if_true, ih c (by simp)]
        rfl
      · simp only [hs, if_false]
        rfl
    | succ index =>
      have hrest := rest_ih (fun d hd ↦ ih d (by simp [hd])) index
      simp only [List.map_cons, stopRunningAt_succ, hrest]
      rfl

private theorem stop_map (h : A.Projects B f g) (n : Node σ) (env : Env ω) :
    (n.map f).stop B (env.map g) = mapStopped f g (n.stop A env) := by
  induction n using child_induction generalizing env with
  | step n ih =>
    have habort (c : Node σ) (hc : c ∈ n.children) (env : Env ω) :
        (c.map f).abort B (env.map g) = mapStopped f g (c.abort A env) :=
      abort_map_of_stop (ih c hc env)
    cases n with
    | leaf =>
      simp only [map_leaf, stop, Env.board_map, Env.world_map, h.stop, Env.after_map]
      rfl
    | composite tag life kind resume children =>
      have hone := stopRunningAt_map habort resume env
      have hall := stopRunning_map habort env
      cases kind with
      | parallel => simpa [stop, Node.children, mapStopped, mapAllStopped, Prod.ext_iff] using hall
      | sequencer => simpa [stop, Node.children, mapStopped, mapAllStopped, Prod.ext_iff] using hone
      | selector => simpa [stop, Node.children, mapStopped, mapAllStopped, Prod.ext_iff] using hone
    | decorator tag life kind memory child =>
      cases child with
      | none => rfl
      | some child =>
        have hc := habort child (by simp [children])
        simp only [abort] at hc
        cases kind <;> by_cases hs : child.started <;>
          simp [stop, hs, hc, mapStopped, Env.enter_map, Env.leave_map]

/-- An abort is the same seen through projections. -/
theorem abort_map (h : A.Projects B f g) (n : Node σ) (env : Env ω) :
    (n.map f).abort B (env.map g) = mapStopped f g (n.abort A env) :=
  abort_map_of_stop (stop_map h n env)

private theorem abortAt_map (h : A.Projects B f g) (ns : List (Node σ)) (index : Nat)
    (env : Env ω) :
    abortAt B (ns.map (map f)) index (env.map g) = mapAllStopped f g (abortAt A ns index env) := by
  induction ns generalizing index with
  | nil => rfl
  | cons c rest ih =>
    cases index with
    | zero =>
      simp only [List.map_cons, abortAt, abort_map h]
      rfl
    | succ index =>
      simp only [List.map_cons, abortAt, ih]
      rfl

/-! ### Running -/

private theorem begin_map (h : A.Projects B f g) (n : Node σ) (env : Env ω) :
    (n.map f).begin B (env.map g) = mapStopped f g (n.begin A env) := by
  by_cases hs : n.started = true
  · simp only [begin, started_map, hs, if_true]
    rfl
  · simp only [begin, started_map, hs, if_false, Bool.false_eq_true]
    cases n with
    | leaf =>
      simp only [map_leaf, Env.board_map, Env.world_map, h.start, Env.after_map]
      rfl
    | composite => simp [mapStopped]
    | decorator => simp [mapStopped]

variable {runA : Node σ → Env ω → Step σ ω} {runB : Node τ → Env ψ → Step τ ψ}

section

variable {ns : List (Node σ)}
  (ih : ∀ c ∈ ns, ∀ env, runB (c.map f) (env.map g) = (runA c env).map f g)

include ih

private theorem scan_map (pass : Status) (env : Env ω) :
    scan runB pass (ns.map (map f)) (env.map g) = (scan runA pass ns env).map f g := by
  induction ns generalizing env with
  | nil => rfl
  | cons c rest rest_ih =>
    have hc := ih c (by simp) env
    have hrest := rest_ih (fun d hd ↦ ih d (by simp [hd])) (runA c env).env
    rw [List.map_cons]
    by_cases hs : (runA c env).status = pass
    · rw [scan_cons_of_pass hs, scan_cons_of_pass (by rw [hc]; exact hs), hc]
      simp only [Step.map, hrest]
      rfl
    · rw [scan_cons_of_ne hs, scan_cons_of_ne (by rw [hc]; exact hs), hc]
      rfl

private theorem scanFrom_map (pass : Status) (index : Nat) (env : Env ω) :
    scanFrom runB pass index (ns.map (map f)) (env.map g) =
      (scanFrom runA pass index ns env).map f g := by
  have hdrop : ∀ c ∈ ns.drop index, ∀ env, runB (c.map f) (env.map g) = (runA c env).map f g :=
    fun c hc ↦ ih c (List.mem_of_mem_drop hc)
  simp only [scanFrom, ← List.map_drop, scan_map hdrop, Scan.map, List.map_append, List.map_take]

private theorem sweep_map (env : Env ω) :
    sweep runB (ns.map (map f)) (env.map g) = (sweep runA ns env).map f g := by
  induction ns generalizing env with
  | nil => rfl
  | cons c rest rest_ih =>
    have hrest := rest_ih (fun d hd ↦ ih d (by simp [hd])) (runA c env).env
    simp only [List.map_cons, sweep, ih c (by simp), Step.map, hrest]
    rfl

private theorem workSequencer_map (h : A.Projects B f g) (resume : Nat) (env : Env ω) :
    workSequencer B runB resume (ns.map (map f)) (env.map g) =
      (workSequencer A runA resume ns env).map f g := by
  rw [workSequencer_eq, workSequencer_eq, probeBefore_map h]
  cases (probeBefore A (·.reEvaluate) .failure resume ns env).1 with
  | some first => simp [Scan.map]
  | none => simp only [List.length_map, scanFrom_map ih]

private theorem workParallel_map (mode : ParallelMode) (env : Env ω) :
    workParallel runB mode (ns.map (map f)) (env.map g) =
      ((workParallel runA mode ns env).1.map f g, (workParallel runA mode ns env).2) := by
  simp only [workParallel, sweep_map ih, List.isEmpty_map]
  rfl

end

private theorem workSelector_map (h : A.Projects B f g) {ns : List (Node σ)} (resume : Nat)
    (env : Env ω) (ih : ∀ c : Node σ, c.size ≤ sizes ns → ∀ env,
      runB (c.map f) (env.map g) = (runA c env).map f g) :
    workSelector B runB resume (ns.map (map f)) (env.map g) =
      (workSelector A runA resume ns env).map f g := by
  rw [workSelector_eq, workSelector_eq, probeBefore_map h]
  cases (probeBefore A (·.hijack) .success resume ns env).1 with
  | some first =>
    simp only [abortAt_map h, mapAllStopped, List.length_map]
    exact scanFrom_map (fun c hc ↦ ih c (size_le_of_mem_abortAt hc)) .failure first _
  | none =>
    simp only [List.length_map]
    exact scanFrom_map (fun c hc ↦ ih c (size_le_sizes hc)) .failure _ _

private theorem workDecorator_map (h : A.Projects B f g) (kind : DecoratorKind) (memory : Memory)
    {child : Node σ} (ih : ∀ env, runB (child.map f) (env.map g) = (runA child env).map f g)
    (env : Env ω) :
    workDecorator B runB kind memory (child.map f) (env.map g) =
      ((workDecorator A runA kind memory child env).1.map f g,
        (workDecorator A runA kind memory child env).2) := by
  cases kind with
  | invert => simp [workDecorator, ih, Step.map]
  | succeeder => simp [workDecorator, ih, Step.map]
  | «scoped» =>
    simp only [workDecorator, Env.enter_map, ih]
    rfl
  | loop limit =>
    cases hm : memory.reached limit with
    | true =>
      rw [workDecorator_loop_of_reached hm, workDecorator_loop_of_reached hm]
      rfl
    | false =>
      by_cases hs : (runA child env).status = .running
      · rw [workDecorator_loop_of_running hm hs,
          workDecorator_loop_of_running hm (by rw [ih]; exact hs), ih]
      · rw [workDecorator_loop_of_ne_running hm hs,
          workDecorator_loop_of_ne_running hm (by rw [ih]; exact hs), ih]
        simp only [Step.map, abort_map h, mapStopped]

private theorem work_map (h : A.Projects B f g) (n : Node σ) (env : Env ω)
    (ih : ∀ c : Node σ, c.size < n.size → ∀ env,
      runB (c.map f) (env.map g) = (runA c env).map f g) :
    (n.map f).work B runB (env.map g) = (n.work A runA env).map f g := by
  cases n with
  | leaf =>
    simp only [map_leaf, work, Env.board_map, Env.world_map, h.run, Env.after_map]
    rfl
  | composite tag life kind resume children =>
    have hc (c : Node σ) (hc : c.size ≤ sizes children) (env : Env ω) :
        runB (c.map f) (env.map g) = (runA c env).map f g := by
      refine ih c ?_ env
      rw [size]
      omega
    have hm (c : Node σ) (hm : c ∈ children) := hc c (size_le_sizes hm)
    cases kind with
    | parallel mode =>
      simp only [map_composite, work, workParallel_map hm]
      simp [Step.map, Sweep.map]
    | sequencer =>
      simp only [map_composite, work, workSequencer_map hm h]
      simp [Step.map, Scan.map]
    | selector =>
      simp only [map_composite, work, workSelector_map h resume env hc]
      simp [Step.map, Scan.map]
  | decorator tag life kind memory child =>
    cases child with
    | none => rfl
    | some child =>
      have hc := ih child (size_lt_of_mem_children (by simp [children]))
      simp only [map_decorator, Option.map_some, work, workDecorator_map h kind memory hc]
      simp [Step.map]

private theorem settle_map (h : A.Projects B f g) (s : Step σ ω) :
    settle B (s.map f g) = (settle A s).map f g := by
  by_cases hs : s.status = .running
  · rw [settle_of_running hs, settle_of_running (by exact hs)]
    simp [Step.map]
  · rw [settle_of_ne_running hs, settle_of_ne_running (by exact hs)]
    simp [Step.map, stop_map h, mapStopped]

/-- Advancing commutes with a projection if running smaller nodes does. -/
theorem advance_map (h : A.Projects B f g) (n : Node σ) (env : Env ω)
    (ih : ∀ c : Node σ, c.size < n.size → ∀ env,
      runB (c.map f) (env.map g) = (runA c env).map f g) :
    (n.map f).advance B runB (env.map g) = (n.advance A runA env).map f g := by
  rw [advance, advance, begin_map h, ← settle_map h]
  rw [← work_map h _ _ (by rw [size_begin]; exact ih)]
  rfl

/-- A run of the projected node is the projected run of the node. -/
theorem run_map (h : A.Projects B f g) (n : Node σ) (env : Env ω) :
    (n.map f).run B (env.map g) = (n.run A env).map f g := by
  induction n using size_induction generalizing env with
  | step n ih => rw [run_eq, run_eq, advance_map h n env ih]

end Node

end BehaviorTree
