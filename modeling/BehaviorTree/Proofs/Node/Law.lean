import BehaviorTree.Proofs.Node.Everywhere
import BehaviorTree.Proofs.Node.Step

/-!
# Laws of the engine

A run and an abort are made of a few steps: hooks of leaves, changes of what a node remembers, steps
of one child, and steps of a child inside the scope of its parent. A relation between nodes with
their surroundings that respects each of these steps is a law of the engine: `Law.runs` says so once
for a run of any node, and `Law.abort` for an abort.
-/

namespace BehaviorTree

variable {ο σ ω κ : Type}

namespace Node

/-- What a relation has to respect to be a law of the engine. It may depend on where a node stands:
`inside` says how a scope decorator changes this for its child. A run starts with `before`. -/
structure Law (B : Behavior ο σ ω) (before : Node σ → Env ω → Env ω) (inside : κ → NodeId → κ)
    (R : κ → Node σ → Env ω → Node σ → Env ω → Prop) : Prop where
  refl (k : κ) (n : Node σ) (env : Env ω) : R k n env n env
  trans {k : κ} {n m p : Node σ} {env env' env'' : Env ω} (h : R k n env m env')
    (h' : R k m env' p env'') : R k n env p env''
  /-- A child may be probed. -/
  probe (k : κ) {n m : Node σ} (hm : m ∈ n.children) (env : Env ω) :
    R k n env n { env with world := (m.evaluate B env.board env.world).2 }
  begin (k : κ) (n : Node σ) (env : Env ω) :
    R k n env (n.begin B (before n env)).1 (n.begin B (before n env)).2
  life (k : κ) (n : Node σ) (env : Env ω) {life : Life} (hl : life.started = n.started) :
    R k n env (n.withLife life) env
  run (k : κ) (tag : Tag) (life : Life) (state : σ) (env : Env ω) :
    R k (leaf tag life state) env (leaf tag life (B.run state env.board env.world).2.state)
      (env.after (B.run state env.board env.world).2)
  stop (k : κ) (tag : Tag) (life life' : Life) (state : σ) (env : Env ω) :
    R k (leaf tag life state) env (leaf tag life' (B.stop state env.board env.world).state)
      (env.after (B.stop state env.board env.world))
  composite (k : κ) (tag : Tag) (life life' : Life) (kind : CompositeKind) (i j : Nat)
    (children : List (Node σ)) (env : Env ω) :
    R k (composite tag life kind i children) env (composite tag life' kind j children) env
  child {k : κ} (tag : Tag) (life : Life) (kind : CompositeKind) (i : Nat)
    (front back : List (Node σ)) {c c' : Node σ} {env env' : Env ω} (h : R k c env c' env') :
    R k (Node.composite tag life kind i (front ++ c :: back)) env
      (Node.composite tag life kind i (front ++ c' :: back)) env'
  childless (k : κ) (tag : Tag) (life life' : Life) (kind : DecoratorKind) (memory : Memory)
    (env : Env ω) :
    R k (decorator tag life kind memory none) env (decorator tag life' kind memory none) env
  only {k : κ} (tag : Tag) (life life' : Life) {kind : DecoratorKind} (hk : kind ≠ .scoped)
    (memory : Memory) (count : UInt32) {c c' : Node σ} {env env' : Env ω} (h : R k c env c' env') :
    R k (decorator tag life kind memory (some c)) env
      (decorator tag life' kind { memory with count } (some c')) env'
  /-- A child works inside the scope of its started parent, which keeps the scope. -/
  inScope {k : κ} {tag : Tag} {life : Life} (memory : Memory) {c c' : Node σ} {env inner : Env ω}
    (h : R (inside k tag.id) c (env.enter memory) c' inner) (hl : life.started = true) :
    R k (decorator tag life .scoped memory (some c)) env
      (decorator tag life .scoped (memory.keep env.board.id inner.board.scope) (some c'))
      (env.leave inner)
  /-- When the activation of the parent ends, the scope is cleared. -/
  endScope {k : κ} {tag : Tag} {life life' : Life} (memory : Memory) {c c' : Node σ}
    {env inner : Env ω} (h : R (inside k tag.id) c (env.enter memory) c' inner)
    (hl : life.started = true) (hl' : life'.started = false) :
    R k (decorator tag life .scoped memory (some c)) env
      (decorator tag life' .scoped (memory.keep env.board.id inner.board.scope.cleared) (some c'))
      (env.leave inner)

namespace Law

/-- Whether the relation holds of some children of any composite. -/
def All (R : κ → Node σ → Env ω → Node σ → Env ω → Prop) (k : κ) (ns : List (Node σ)) (env : Env ω)
    (ns' : List (Node σ)) (env' : Env ω) : Prop :=
  ∀ (tag : Tag) (life : Life) (kind : CompositeKind) (i : Nat) (front back : List (Node σ)),
    R k (Node.composite tag life kind i (front ++ ns ++ back)) env
      (Node.composite tag life kind i (front ++ ns' ++ back)) env'

variable {B : Behavior ο σ ω} {before : Node σ → Env ω → Env ω} {inside : κ → NodeId → κ}
  {R : κ → Node σ → Env ω → Node σ → Env ω → Prop} (hR : Law B before inside R) {k : κ}

include hR

private theorem all_refl (ns : List (Node σ)) (env : Env ω) : All R k ns env ns env :=
  fun _ _ _ _ _ _ ↦ hR.refl _ _ _

private theorem all_trans {ns ms ks : List (Node σ)} {env env' env'' : Env ω}
    (h : All R k ns env ms env') (h' : All R k ms env' ks env'') : All R k ns env ks env'' :=
  fun tag life kind i front back ↦
    hR.trans (h tag life kind i front back) (h' tag life kind i front back)

/-- The first of some children changes. -/
theorem all_head {c c' : Node σ} {env env' : Env ω} (h : R k c env c' env') (rest : List (Node σ)) :
    All R k (c :: rest) env (c' :: rest) env' := by
  intro tag life kind i front back
  have hc := hR.child tag life kind i front (rest ++ back) h
  simpa using hc

omit hR in
/-- Children behind others change. -/
theorem All.behind {ns ns' : List (Node σ)} {env env' : Env ω} (h : All R k ns env ns' env')
    (first : List (Node σ)) : All R k (first ++ ns) env (first ++ ns') env' := by
  intro tag life kind i front back
  have hc := h tag life kind i (front ++ first) back
  simpa using hc

private theorem all_cons {c c' : Node σ} {rest rest' : List (Node σ)} {env env' env'' : Env ω}
    (h : R k c env c' env') (hr : All R k rest env' rest' env'') :
    All R k (c :: rest) env (c' :: rest') env'' :=
  hR.all_trans (hR.all_head h rest) (hr.behind [c'])

/-- All children of a composite change, and with them what it remembers. -/
theorem of_all {ns ns' : List (Node σ)} {env env' : Env ω} (h : All R k ns env ns' env') (tag : Tag)
    (life life' : Life) (kind : CompositeKind) (i j : Nat) :
    R k (Node.composite tag life kind i ns) env (Node.composite tag life' kind j ns') env' := by
  have hc := h tag life kind i [] []
  simp only [List.nil_append, List.append_nil] at hc
  exact hR.trans hc (hR.composite k tag life life' kind i j ns' env')

/-! ### Probing -/

private theorem probes {n : Node σ} {ms : List (Node σ)} (hms : ∀ m ∈ ms, m ∈ n.children)
    (flag : Flags → Bool) (wanted : Status) (env : Env ω) :
    R k n env n { env with world := (Node.probe B flag wanted ms env.board env.world).2 } := by
  induction ms generalizing env with
  | nil => exact hR.refl k n env
  | cons m rest ih =>
    have hm := hR.probe k (hms m List.mem_cons_self) env
    have hrest := ih fun c hc ↦ hms c (List.mem_cons_of_mem _ hc)
    simp only [Node.probe]
    split
    · split
      · exact hm
      · exact hR.trans hm (hrest { env with world := (m.evaluate B env.board env.world).2 })
    · exact hrest env

/-- The relation holds of children that are probed. -/
theorem probeBefore (flag : Flags → Bool) (wanted : Status) (resume : Nat) (ns : List (Node σ))
    (env : Env ω) : All R k ns env ns (Node.probeBefore B flag wanted resume ns env).2 := by
  intro tag life kind i front back
  refine hR.probes (fun m hm ↦ ?_) flag wanted env
  have hns := List.mem_of_mem_take hm
  simp [children, hns]

/-! ### Stopping -/

/-- A law that stopping a started node respects, aborting respects. -/
theorem abort_of_stop {n : Node σ} {env : Env ω}
    (h : n.started = true → R k n env ((n.stop B env).1.withLife .fresh) (n.stop B env).2) :
    R k n env (n.abort B env).1 (n.abort B env).2 := by
  cases hs : n.started with
  | true =>
    rw [abort_of_started hs]
    exact h hs
  | false =>
    rw [abort_of_not_started hs]
    exact hR.life k n env hs.symm

/-- A child that is aborted on a condition. -/
theorem abort_if {c : Node σ} {env : Env ω} (p : Prop) [Decidable p]
    (h : R k c env (c.abort B env).1 (c.abort B env).2) :
    let r := if p then c.abort B env else (c, env)
    R k c env r.1 r.2 := by
  by_cases hp : p
  · simpa [hp] using h
  · simpa [hp] using hR.refl k c env

section

variable {ns : List (Node σ)}
  (ih : ∀ c ∈ ns, ∀ env, R k c env (c.abort B env).1 (c.abort B env).2)

include ih

private theorem stopRunning (env : Env ω) :
    All R k ns env (Node.stopRunning B ns env).1 (Node.stopRunning B ns env).2 := by
  induction ns generalizing env with
  | nil => exact hR.all_refl _ _
  | cons c rest rest_ih =>
    have hc := hR.abort_if (c.state = .running) (ih c (by simp) env)
    exact hR.all_cons hc (rest_ih (fun d hd ↦ ih d (by simp [hd])) _)

private theorem stopRunningAt (index : Nat) (env : Env ω) :
    All R k ns env (Node.stopRunningAt B ns index env).1 (Node.stopRunningAt B ns index env).2 := by
  induction ns generalizing index with
  | nil => exact hR.all_refl _ _
  | cons c rest rest_ih =>
    cases index with
    | zero => exact hR.all_head (hR.abort_if (c.state = .running) (ih c (by simp) env)) rest
    | succ index => exact (rest_ih (fun d hd ↦ ih d (by simp [hd])) index).behind [c]

end

/-- Stopping ends the activation of a started node. -/
theorem stops (n : Node σ) (env : Env ω) (hs : n.started = true) {life : Life}
    (hl : life.started = false) :
    R k n env ((n.stop B env).1.withLife life) (n.stop B env).2 := by
  induction n using child_induction generalizing k env life with
  | step n ih =>
    have habort (k : κ) (c : Node σ) (hc : c ∈ n.children) (env : Env ω) :
        R k c env (c.abort B env).1 (c.abort B env).2 :=
      hR.abort_of_stop fun hstarted ↦ ih c hc env hstarted rfl
    cases n with
    | leaf tag last state => exact hR.stop k tag last life state env
    | composite tag last kind resume children =>
      have hone := hR.of_all (hR.stopRunningAt (habort k) resume env) tag last life kind resume 0
      have hall := hR.of_all (hR.stopRunning (habort k) env) tag last life kind resume 0
      cases kind with
      | parallel mode => exact hall
      | sequencer => exact hone
      | selector => exact hone
    | decorator tag last kind memory child =>
      cases child with
      | none => exact hR.childless k tag last life kind memory env
      | some child =>
        have hc (k : κ) (env : Env ω) :=
          hR.abort_if (child.started = true) (habort k child (by simp [children]) env)
        cases kind with
        | «scoped» => exact hR.endScope memory (hc (inside k tag.id) (env.enter memory)) hs hl
        | invert => exact hR.only tag last life (by simp) memory memory.count (hc k env)
        | succeeder => exact hR.only tag last life (by simp) memory memory.count (hc k env)
        | loop limit => exact hR.only tag last life (by simp) memory memory.count (hc k env)

/-- An abort respects a law. -/
theorem abort (n : Node σ) (env : Env ω) : R k n env (n.abort B env).1 (n.abort B env).2 :=
  hR.abort_of_stop fun hs ↦ hR.stops n env hs rfl

/-- The relation holds of children of which one is aborted. -/
theorem abortAt (ns : List (Node σ)) (index : Nat) (env : Env ω) :
    All R k ns env (Node.abortAt B ns index env).1 (Node.abortAt B ns index env).2 := by
  induction ns generalizing index with
  | nil => exact hR.all_refl _ _
  | cons c rest ih =>
    cases index with
    | zero => exact hR.all_head (hR.abort c env) rest
    | succ index => exact (ih index).behind [c]

/-! ### Running -/

/-- A node that came to an end is stopped. -/
theorem settle (s : Step σ ω) (hs : s.node.started = true) :
    R k s.node s.env (Node.settle B s).node (Node.settle B s).env := by
  by_cases hr : s.status = .running
  · rw [settle_of_running hr]
    exact hR.life k _ _ hs.symm
  · rw [settle_of_ne_running hr]
    exact hR.stops _ _ hs rfl

variable {run : Node σ → Env ω → Step σ ω}

section

variable {ns : List (Node σ)}
  (ih : ∀ c ∈ ns, ∀ env, R k c env (run c env).node (run c env).env)

include ih

private theorem scan (pass : Status) (env : Env ω) :
    let r := Node.scan run pass ns env
    All R k ns env r.children r.env := by
  induction ns generalizing env with
  | nil => exact hR.all_refl _ _
  | cons c rest rest_ih =>
    by_cases hs : (run c env).status = pass
    · rw [scan_cons_of_pass hs]
      exact hR.all_cons (ih c (by simp) env) (rest_ih (fun d hd ↦ ih d (by simp [hd])) _)
    · rw [scan_cons_of_ne hs]
      exact hR.all_head (ih c (by simp) env) rest

private theorem scanFrom (pass : Status) (index : Nat) (env : Env ω) :
    let r := Node.scanFrom run pass index ns env
    All R k ns env r.children r.env := by
  have hdrop : ∀ c ∈ ns.drop index, ∀ env, R k c env (run c env).node (run c env).env :=
    fun c hc ↦ ih c (List.mem_of_mem_drop hc)
  have hr := (hR.scan hdrop pass env).behind (ns.take index)
  rw [List.take_append_drop] at hr
  exact hr

private theorem sweep (env : Env ω) :
    let r := Node.sweep run ns env
    All R k ns env r.children r.env := by
  induction ns generalizing env with
  | nil => exact hR.all_refl _ _
  | cons c rest rest_ih =>
    exact hR.all_cons (ih c (by simp) env) (rest_ih (fun d hd ↦ ih d (by simp [hd])) _)

private theorem workSequencer (resume : Nat) (env : Env ω) :
    let r := Node.workSequencer B run resume ns env
    All R k ns env r.children r.env := by
  have hprobe : All R k ns env ns _ := hR.probeBefore (·.reEvaluate) .failure resume ns env
  rw [workSequencer_eq]
  cases (Node.probeBefore B (·.reEvaluate) .failure resume ns env).1 with
  | some first => exact hprobe
  | none => exact hR.all_trans hprobe (hR.scanFrom ih .success _ _)

end

private theorem workSelector {ns : List (Node σ)}
    (ih : ∀ c : Node σ, c.size ≤ sizes ns → ∀ env, R k c env (run c env).node (run c env).env)
    (resume : Nat) (env : Env ω) :
    let r := Node.workSelector B run resume ns env
    All R k ns env r.children r.env := by
  have hprobe : All R k ns env ns _ := hR.probeBefore (·.hijack) .success resume ns env
  rw [workSelector_eq]
  cases (Node.probeBefore B (·.hijack) .success resume ns env).1 with
  | some first =>
    apply hR.all_trans hprobe
    apply hR.all_trans (hR.abortAt ns _ _)
    exact hR.scanFrom (fun c hc ↦ ih c (size_le_of_mem_abortAt hc)) .failure first _
  | none =>
    exact hR.all_trans hprobe (hR.scanFrom (fun c hc ↦ ih c (size_le_sizes hc)) .failure _ _)

private theorem workDecorator (tag : Tag) {life : Life} (hl : life.started = true)
    (kind : DecoratorKind) (memory : Memory) {child : Node σ}
    (ih : ∀ k env, R k child env (run child env).node (run child env).env) (env : Env ω) :
    let r := Node.workDecorator B run kind memory child env
    R k (decorator tag life kind memory (some child)) env
      (decorator tag life kind r.2 (some r.1.node)) r.1.env := by
  cases kind with
  | invert => exact hR.only tag life life (by simp) memory memory.count (ih k env)
  | succeeder => exact hR.only tag life life (by simp) memory memory.count (ih k env)
  | «scoped» => exact hR.inScope memory (ih (inside k tag.id) (env.enter memory)) hl
  | loop limit =>
    cases hm : memory.reached limit with
    | true =>
      rw [workDecorator_loop_of_reached hm]
      exact hR.refl _ _ _
    | false =>
      by_cases hs : (run child env).status = .running
      · rw [workDecorator_loop_of_running hm hs]
        exact hR.only tag life life (by simp) memory memory.count (ih k env)
      · rw [workDecorator_loop_of_ne_running hm hs]
        exact hR.only tag life life (by simp) memory _ (hR.trans (ih k env) (hR.abort _ _))

private theorem work (n : Node σ) (hs : n.started = true)
    (ih : ∀ c : Node σ, c.size < n.size → ∀ k env, R k c env (run c env).node (run c env).env)
    (env : Env ω) :
    R k n env (n.work B run env).node (n.work B run env).env := by
  cases n with
  | leaf tag life state => exact hR.run k tag life state env
  | composite tag life kind resume children =>
    have hsize (c : Node σ) (hc : c.size ≤ sizes children) (env : Env ω) :
        R k c env (run c env).node (run c env).env := by
      apply ih c
      rw [size]
      omega
    have hmem (c : Node σ) (hc : c ∈ children) := hsize c (size_le_sizes hc)
    cases kind with
    | parallel mode => exact hR.of_all (hR.sweep hmem env) tag life life _ resume resume
    | sequencer => exact hR.of_all (hR.workSequencer hmem resume env) tag life life _ resume _
    | selector => exact hR.of_all (hR.workSelector hsize resume env) tag life life _ resume _
  | decorator tag life kind memory child =>
    cases child with
    | none => exact hR.refl _ _ _
    | some child =>
      have hc := ih child (size_lt_of_mem_children (by simp [children]))
      exact hR.workDecorator tag hs kind memory hc env

/-- A run that starts with `before` respects a law. -/
theorem runs (hrun : ∀ n env, run n env = n.advance B run (before n env)) (n : Node σ) (k : κ)
    (env : Env ω) : R k n env (run n env).node (run n env).env := by
  induction n using size_induction generalizing k env with
  | step n ih =>
    have hs := started_begin B n (before n env)
    rw [hrun, advance]
    apply hR.trans (hR.begin k n env)
    apply hR.trans (hR.work _ hs (fun c hc ↦ ih c (by rwa [size_begin] at hc)) _)
    exact hR.settle _ (by rw [started_work]; exact hs)

end Law

end Node

end BehaviorTree
