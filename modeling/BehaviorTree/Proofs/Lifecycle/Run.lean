import BehaviorTree.Proofs.Lifecycle.Steady

/-!
# Runs keep nodes steady

Starting opens a resting node, a tick of work leaves it open and waiting if it is to be resumed,
and settling brings it to rest otherwise.
-/

namespace BehaviorTree

variable {ο σ ω : Type}

namespace Node

variable {B : Behavior ο σ ω} {L : Phase → σ → Prop}

/-- Starting opens a steady node. -/
theorem begin_open (hB : B.Respects L) {n : Node σ} (h : n.Steady L) (env : Env ω) :
    (n.begin B env).1.Open fun s ↦ L .opened s ∨ L .suspended s := by
  unfold begin
  split
  · next hs => exact (h.active hs).1.imp fun _ ↦ .inr
  · next hs =>
    have hr := h.resting (by simpa using hs)
    cases n with
    | leaf => exact .inl (hB.start _ _ hr)
    | composite tag life kind resume children =>
      have ho : OnlyAt 0 children := onlyAt_of_none hr.2
      cases kind with
      | parallel => trivial
      | sequencer => exact ho
      | selector => exact ho
    | decorator => exact fun _ ↦ hr.1

/-! ### Loops over children -/

/-- The outcome of a loop that leaves steady children, of which at most the last one it ran is
started, and certainly if that one is to be resumed. -/
structure ScanSteady (L : Phase → σ → Prop) (r : Scan σ ω) : Prop where
  children : ∀ c ∈ r.children, AllSteady L c
  only : OnlyAt r.passed r.children
  waiting : r.status = .running → ∃ c, r.children[r.passed]? = some c ∧ c.started = true

/-- A loop over children of which at most the first is started leaves at most its last started. -/
theorem scan_steady {pass : Status} (hpass : pass ≠ .running) {ns : List (Node σ)}
    (hn : ∀ c ∈ ns, AllSteady L c) (ho : OnlyAt 0 ns)
    (ih : ∀ c ∈ ns, ∀ env : Env ω, AllSteady L c → AllSteady L (c.run B env).node)
    (env : Env ω) : ScanSteady L (scan (run B) pass ns env) := by
  induction ns generalizing env with
  | nil =>
    refine ⟨?_, ?_, fun h ↦ absurd h hpass⟩
    · intro c hc
      cases hc
    · exact onlyAt_of_none fun c hc ↦ by cases hc
  | cons c rest rest_ih =>
    have hrest := onlyAt_cons_zero.mp ho
    have hc := ih c (by simp) env (hn c (by simp))
    by_cases hs : (c.run B env).status = pass
    · have hr := rest_ih (fun d hd ↦ hn d (by simp [hd])) (onlyAt_of_none hrest)
        (fun d hd ↦ ih d (by simp [hd])) (c.run B env).env
      have hstarted : (c.run B env).node.started = false := by
        rw [started_run, hs, Status.isRunning_eq_false hpass]
      rw [scan_cons_of_pass hs]
      refine ⟨?_, onlyAt_cons_succ.mpr ⟨hstarted, hr.only⟩, ?_⟩
      · intro d hd
        rcases List.mem_cons.mp hd with rfl | hd
        · exact hc
        · exact hr.children d hd
      · intro h
        simpa using hr.waiting h
    · rw [scan_cons_of_ne hs]
      refine ⟨?_, onlyAt_cons_zero.mpr hrest, ?_⟩
      · intro d hd
        rcases List.mem_cons.mp hd with rfl | hd
        · exact hc
        · exact hn d (by simp [hd])
      · intro h
        exact ⟨_, rfl, by rw [started_run]; exact Status.isRunning_iff.mpr h⟩

/-- The same for a loop that begins at an index inside the list. -/
theorem scanFrom_steady {pass : Status} (hpass : pass ≠ .running) {ns : List (Node σ)}
    {index : Nat} (hi : index ≤ ns.length) (hn : ∀ c ∈ ns, AllSteady L c) (ho : OnlyAt index ns)
    (ih : ∀ c ∈ ns, ∀ env : Env ω, AllSteady L c → AllSteady L (c.run B env).node)
    (env : Env ω) : ScanSteady L (scanFrom (run B) pass index ns env) := by
  obtain ⟨hbefore, hbehind⟩ := ho.split
  obtain ⟨hr, hro, hrw⟩ := scan_steady hpass (fun c hc ↦ hn c (List.mem_of_mem_drop hc)) hbehind
    (fun c hc ↦ ih c (List.mem_of_mem_drop hc)) env
  have hlength : (ns.take index).length = index := by simp [hi]
  refine ⟨?_, ?_, ?_⟩
  · intro c hc
    rcases List.mem_append.mp hc with hc | hc
    · exact hn c (List.mem_of_mem_take hc)
    · exact hr c hc
  · have := onlyAt_append hbefore hro
    rwa [hlength] at this
  · intro h
    obtain ⟨c, hc, hs⟩ := hrw h
    refine ⟨c, ?_, hs⟩
    show (ns.take index ++ _)[index + _]? = some c
    rw [List.getElem?_append_right (by omega), hlength, Nat.add_sub_cancel_left]
    exact hc

/-- Running all children keeps them steady. -/
theorem sweep_steady {ns : List (Node σ)} (hn : ∀ c ∈ ns, AllSteady L c)
    (ih : ∀ c ∈ ns, ∀ env : Env ω, AllSteady L c → AllSteady L (c.run B env).node)
    (env : Env ω) : ∀ c ∈ (sweep (run B) ns env).children, AllSteady L c := by
  induction ns generalizing env with
  | nil => intro c hc; cases hc
  | cons d rest rest_ih =>
    intro c hc
    rcases List.mem_cons.mp hc with rfl | hc
    · exact ih d (by simp) env (hn d (by simp))
    · exact rest_ih (fun c hc ↦ hn c (by simp [hc])) (fun c hc ↦ ih c (by simp [hc])) _ c hc

/-- Aborting the one node that may be started leaves none started. -/
theorem abortAt_steady (hB : B.Respects L) {ns : List (Node σ)} {index : Nat}
    (hn : ∀ c ∈ ns, AllSteady L c) (ho : OnlyAt index ns) (env : Env ω) :
    ∀ c ∈ (abortAt B ns index env).1, AllSteady L c ∧ c.started = false := by
  induction ns generalizing index with
  | nil => intro c hc; cases hc
  | cons d rest rest_ih =>
    intro c hc
    cases index with
    | zero =>
      rcases List.mem_cons.mp hc with rfl | hc
      · exact ⟨abort_steady hB env (hn d (by simp)), started_abort B d env⟩
      · exact ⟨hn c (by simp [hc]), onlyAt_cons_zero.mp ho c hc⟩
    | succ index =>
      obtain ⟨hd, ho⟩ := onlyAt_cons_succ.mp ho
      rcases List.mem_cons.mp hc with rfl | hc
      · exact ⟨hn c (by simp), hd⟩
      · exact rest_ih (fun c hc ↦ hn c (by simp [hc])) ho c hc

/-! ### A tick of work -/

/-- The outcome of a tick of work that leaves an open node over steady children, and a waiting one
if it is to be resumed. -/
structure WorkSteady (L : Phase → σ → Prop) (s : Step σ ω) : Prop where
  isOpen : s.node.Open (L (.after s.status))
  waiting : s.status = .running → s.node.Waiting
  children : ∀ c ∈ s.node.children, AllSteady L c

/-- Settling such an outcome gives a steady node. -/
theorem settle_steady (hB : B.Respects L) {s : Step σ ω} (h : WorkSteady L s) :
    AllSteady L (settle B s).node := by
  by_cases hs : s.status = .running
  · have ho := h.isOpen
    rw [hs] at ho
    rw [settle_of_running hs]
    exact allSteady_of_waiting ho (h.waiting hs) h.children
  · have hr := stop_resting hB (h.isOpen.imp fun x hx ↦ ?_) h.children
      (fun c _ env hc ↦ abort_steady hB env hc) s.env
    · rw [settle_of_ne_running hs]
      refine allSteady_of_resting ?_ hr.1 hr.2
      simpa [NodeState.ofStatus_eq_running_iff] using hs
    · cases he : s.status with
      | running => exact absurd he hs
      | success => rw [he] at hx; exact .inr hx
      | failure => rw [he] at hx; exact .inr hx

/-- A sequencer that keeps its place keeps at most the child there started. -/
theorem workSequencer_steady {resume : Nat} {ns : List (Node σ)} (hn : ∀ c ∈ ns, AllSteady L c)
    (ho : OnlyAt resume ns)
    (ih : ∀ c ∈ ns, ∀ env : Env ω, AllSteady L c → AllSteady L (c.run B env).node)
    (env : Env ω) : ScanSteady L (workSequencer B (run B) resume ns env) := by
  have hi := onlyAt_min ho
  rw [workSequencer_eq]
  cases (probeBefore B (·.reEvaluate) .failure resume ns env).1 with
  | some _ => exact ⟨hn, hi, fun h ↦ absurd h (by simp)⟩
  | none => exact scanFrom_steady (by simp) (by omega) hn hi ih _

/-- A selector in which an earlier child takes over aborts the one it would have resumed. -/
theorem workSelector_steady (hB : B.Respects L) {resume : Nat} {ns : List (Node σ)}
    (hn : ∀ c ∈ ns, AllSteady L c) (ho : OnlyAt resume ns)
    (ih : ∀ c : Node σ, c.size ≤ sizes ns → ∀ env : Env ω,
      AllSteady L c → AllSteady L (c.run B env).node)
    (env : Env ω) : ScanSteady L (workSelector B (run B) resume ns env) := by
  have hi := onlyAt_min ho
  rw [workSelector_eq]
  cases hp : (probeBefore B (·.hijack) .success resume ns env).1 with
  | some first =>
    have hfirst := probeBefore_lt hp
    have ha := abortAt_steady hB hn hi (probeBefore B (·.hijack) .success resume ns env).2
    refine scanFrom_steady (by simp) ?_ (fun c hc ↦ (ha c hc).1)
      (onlyAt_of_none fun c hc ↦ (ha c hc).2) (fun c hc ↦ ih c (size_le_of_mem_abortAt hc)) _
    rw [length_abortAt]
    omega
  | none =>
    exact scanFrom_steady (by simp) (by omega) hn hi (fun c hc ↦ ih c (size_le_sizes hc)) _

/-- A tick of work of a decorator leaves its child steady, started if the decorator is to be
resumed and is no loop, and its memory vacant unless it is a scope. -/
theorem workDecorator_steady (hB : B.Respects L) {kind : DecoratorKind} {memory : Memory}
    {child : Node σ} (hm : kind ≠ .scoped → memory.Vacant) (hc : AllSteady L child)
    (ih : ∀ env : Env ω, AllSteady L child → AllSteady L (child.run B env).node) (env : Env ω) :
    let r := workDecorator B (run B) kind memory child env
    (kind ≠ .scoped → r.2.Vacant) ∧ AllSteady L r.1.node ∧
      (r.1.status = .running → (∃ limit, kind = .loop limit) ∨ r.1.node.started = true) := by
  have hstarted (env : Env ω) (h : (child.run B env).status = .running) :
      (child.run B env).node.started = true := by
    rw [started_run]
    exact Status.isRunning_iff.mpr h
  cases kind with
  | invert =>
    exact ⟨hm, ih env hc, fun h ↦ .inr (hstarted env (Status.invert_eq_running_iff.mp h))⟩
  | succeeder =>
    exact ⟨hm, ih env hc, fun h ↦ .inr (hstarted env (Status.forgive_eq_running_iff.mp h))⟩
  | loop limit =>
    have hvacant : memory.Vacant := hm (by simp)
    cases hr : memory.reached limit with
    | true =>
      rw [workDecorator_loop_of_reached hr]
      exact ⟨hm, hc, fun _ ↦ .inl ⟨limit, rfl⟩⟩
    | false =>
      by_cases hs : (child.run B env).status = .running
      · rw [workDecorator_loop_of_running hr hs]
        exact ⟨hm, ih env hc, fun _ ↦ .inl ⟨limit, rfl⟩⟩
      · rw [workDecorator_loop_of_ne_running hr hs]
        exact ⟨fun _ ↦ hvacant, abort_steady hB _ (ih env hc), fun _ ↦ .inl ⟨limit, rfl⟩⟩
  | «scoped» => exact ⟨fun h ↦ absurd rfl h, ih _ hc, fun h ↦ .inr (hstarted _ h)⟩

/-- A tick of work on an open node over steady children keeps its children steady. -/
theorem work_steady (hB : B.Respects L) {n : Node σ}
    (ho : n.Open fun s ↦ L .opened s ∨ L .suspended s) (hc : ∀ c ∈ n.children, AllSteady L c)
    (ih : ∀ c : Node σ, c.size < n.size → ∀ env : Env ω,
      AllSteady L c → AllSteady L (c.run B env).node)
    (env : Env ω) : WorkSteady L (n.work B (run B) env) := by
  have ih_child (c : Node σ) (h : c ∈ n.children) := ih c (size_lt_of_mem_children h)
  cases n with
  | leaf tag life state =>
    exact ⟨hB.run _ _ ho, fun _ ↦ trivial, fun c hc ↦ by cases hc⟩
  | composite tag life kind resume children =>
    cases kind with
    | sequencer =>
      have hr := workSequencer_steady hc ho ih_child env
      exact ⟨hr.only, hr.waiting, hr.children⟩
    | selector =>
      have hsize (c : Node σ) (h : c.size ≤ sizes children) :
          c.size < (composite tag life .selector resume children).size := by
        rw [size]
        omega
      have hr := workSelector_steady hB hc ho (fun c h ↦ ih c (hsize c h)) env
      exact ⟨hr.only, hr.waiting, hr.children⟩
    | parallel mode => exact ⟨trivial, fun _ ↦ trivial, sweep_steady hc ih_child env⟩
  | decorator tag life kind memory child =>
    cases child with
    | none => exact ⟨ho, fun h ↦ absurd h (by simp [work]), hc⟩
    | some child =>
      have hm : child ∈ (decorator tag life kind memory (some child)).children := by
        simp [Node.children]
      obtain ⟨hv, hs, hw⟩ := workDecorator_steady hB (fun hk ↦ ho (.inl hk)) (hc child hm)
        (ih_child child hm) env
      refine ⟨fun hk ↦ hv (hk.resolve_right (by simp)), fun h ↦ ?_, fun c h ↦ ?_⟩
      · cases kind with
        | loop => trivial
        | invert => exact ⟨_, rfl, (hw h).resolve_left (by simp)⟩
        | succeeder => exact ⟨_, rfl, (hw h).resolve_left (by simp)⟩
        | «scoped» => exact ⟨_, rfl, (hw h).resolve_left (by simp)⟩
      · rw [List.mem_singleton.mp h]
        exact hs

/-- A run keeps a subtree steady. -/
theorem run_steady (hB : B.Respects L) {n : Node σ} (env : Env ω) (h : AllSteady L n) :
    AllSteady L (n.run B env).node := by
  induction n using size_induction generalizing env with
  | step n ih =>
    rw [run_eq]
    refine settle_steady hB (work_steady hB (begin_open hB h.here env) ?_ ?_ _)
    · rw [children_begin]
      exact fun c ↦ h.below
    · intro c hc env
      rw [size_begin] at hc
      exact ih c hc env

end Node

end BehaviorTree
