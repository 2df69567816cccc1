import BehaviorTree.Proofs.Node.Step
import BehaviorTree.Proofs.Node.Unused

/-!
# Steady nodes

Between two calls of the host every node of a tree is steady: it is started exactly if its last
run suspended it; then it works on a started child, and a sequencer or selector on no other; a node
that is not started has nothing left to stop below it. The same invariant follows the states of
the leaves through the phases of an activation. `run_steady` and `abort_steady` keep it.
-/

namespace BehaviorTree

variable {ο σ ω : Type}

/-- How far a leaf has come in an activation. -/
inductive Phase where
  /-- No activation is open. -/
  | idle
  /-- An activation is open and nothing was run in it. -/
  | opened
  /-- The last run suspended the activation. -/
  | suspended
  /-- The last run ended the activation. -/
  | ended

/-- The phase in which a run leaves a leaf. -/
def Phase.after : Status → Phase
  | .running => .suspended
  | .success => .ended
  | .failure => .ended

/-- Hooks that lead the states of leaves from phase to phase. -/
structure Behavior.Respects (B : Behavior ο σ ω) (L : Phase → σ → Prop) : Prop where
  start : ∀ {s : σ} (b : Blackboard) (w : ω), L .idle s → L .opened (B.start s b w).state
  run : ∀ {s : σ} (b : Blackboard) (w : ω), L .opened s ∨ L .suspended s →
    L (.after (B.run s b w).1) (B.run s b w).2.state
  stop : ∀ {s : σ} (b : Blackboard) (w : ω), L .suspended s ∨ L .ended s →
    L .idle (B.stop s b w).state

/-- Hooks of which nothing is asked respect the phases. -/
theorem Behavior.respects_true (B : Behavior ο σ ω) : B.Respects fun _ _ ↦ True :=
  ⟨fun _ _ _ ↦ trivial, fun _ _ _ ↦ trivial, fun _ _ _ ↦ trivial⟩

namespace Node

/-- No node of a list is started, except perhaps the one at an index. -/
def OnlyAt (index : Nat) (ns : List (Node σ)) : Prop :=
  ∀ (i : Nat) (c : Node σ), ns[i]? = some c → i ≠ index → c.started = false

/-- A node with no activation to close, neither its own nor one of a child. -/
def Resting (ready : σ → Prop) : Node σ → Prop
  | leaf _ _ state => ready state
  | composite _ _ _ resume children => resume = 0 ∧ ∀ c ∈ children, c.started = false
  | decorator _ _ _ memory child => memory.Vacant ∧ ∀ c ∈ child, c.started = false

/-- A node whose stopping reaches every started child: a sequencer or selector stops only the
child it would resume, and only a scope decorator with a child clears its scope. -/
def Open (ready : σ → Prop) : Node σ → Prop
  | leaf _ _ state => ready state
  | composite _ _ (.parallel _) _ _ => True
  | composite _ _ .sequencer resume children => OnlyAt resume children
  | composite _ _ .selector resume children => OnlyAt resume children
  | decorator _ _ kind memory child => kind ≠ .scoped ∨ child = none → memory.Vacant

/-- A node that waits for a started child; a leaf, a parallel node and a loop need none. -/
def Waiting : Node σ → Prop
  | leaf .. => True
  | composite _ _ (.parallel _) _ _ => True
  | composite _ _ .sequencer resume children => ∃ c, children[resume]? = some c ∧ c.started = true
  | composite _ _ .selector resume children => ∃ c, children[resume]? = some c ∧ c.started = true
  | decorator _ _ (.loop _) _ _ => True
  | decorator _ _ _ _ child => ∃ c ∈ child, c.started = true

/-- What holds of a node between two calls of the host. -/
structure Steady (L : Phase → σ → Prop) (n : Node σ) : Prop where
  started_iff : n.started = true ↔ n.state = .running
  active : n.started = true → n.Open (L .suspended) ∧ n.Waiting
  resting : n.started = false → n.Resting (L .idle)

/-- A steady subtree. -/
abbrev AllSteady (L : Phase → σ → Prop) (n : Node σ) : Prop := n.Everywhere (Steady L)

variable {B : Behavior ο σ ω} {L : Phase → σ → Prop}

/-- Whether a node rests does not depend on its life. -/
@[simp] theorem resting_withLife {ready : σ → Prop} {n : Node σ} {life : Life} :
    (n.withLife life).Resting ready ↔ n.Resting ready := by
  cases n <;> rfl

/-- Whether stopping a node reaches every started child does not depend on its life. -/
@[simp] theorem open_withLife {ready : σ → Prop} {n : Node σ} {life : Life} :
    (n.withLife life).Open ready ↔ n.Open ready := by
  cases n with
  | leaf => rfl
  | composite _ _ kind => cases kind <;> rfl
  | decorator => rfl

/-- Whether a node waits for a child does not depend on its life. -/
@[simp] theorem waiting_withLife {n : Node σ} {life : Life} :
    (n.withLife life).Waiting ↔ n.Waiting := by
  cases n with
  | leaf => rfl
  | composite _ _ kind => cases kind <;> rfl
  | decorator _ _ kind => cases kind <;> rfl

/-- A node is started if the life that was put in says so. -/
@[simp] theorem started_withLife (n : Node σ) (life : Life) :
    (n.withLife life).started = life.started := by
  simp [started]

/-- The state is that of the life that was put in. -/
@[simp] theorem state_withLife (n : Node σ) (life : Life) :
    (n.withLife life).state = life.state := by
  simp [state]

/-- Where no node is started, there is no exception to make. -/
theorem onlyAt_of_none {index : Nat} {ns : List (Node σ)} (h : ∀ c ∈ ns, c.started = false) :
    OnlyAt index ns :=
  fun _ c hi _ ↦ h c (List.mem_of_getElem? hi)

/-- No node but the first is started exactly when none of the others is. -/
theorem onlyAt_cons_zero {c : Node σ} {rest : List (Node σ)} :
    OnlyAt 0 (c :: rest) ↔ ∀ d ∈ rest, d.started = false := by
  constructor
  · intro h d hd
    obtain ⟨i, hi⟩ := List.mem_iff_getElem?.mp hd
    exact h (i + 1) d (by simpa using hi) (by omega)
  · intro h i d hd hi
    cases i with
    | zero => exact absurd rfl hi
    | succ i => exact h d (List.mem_of_getElem? (by simpa using hd))

/-- Where the exception is not the first node, the first is not started. -/
theorem onlyAt_cons_succ {c : Node σ} {rest : List (Node σ)} {index : Nat} :
    OnlyAt (index + 1) (c :: rest) ↔ c.started = false ∧ OnlyAt index rest := by
  constructor
  · intro h
    refine ⟨h 0 c rfl (by omega), fun i d hd hi ↦ ?_⟩
    exact h (i + 1) d (by simpa using hd) (by omega)
  · rintro ⟨hc, hr⟩ i d hd hi
    cases i with
    | zero => cases hd; exact hc
    | succ i => exact hr i d (by simpa using hd) (by omega)

/-- Nodes that are not started shift the place of the exception. -/
theorem onlyAt_append {as bs : List (Node σ)} {index : Nat} (ha : ∀ c ∈ as, c.started = false)
    (hb : OnlyAt index bs) : OnlyAt (as.length + index) (as ++ bs) := by
  induction as with
  | nil => simpa using hb
  | cons a as ih =>
    rw [List.length_cons, Nat.succ_add, List.cons_append, onlyAt_cons_succ]
    exact ⟨ha a (by simp), ih fun c hc ↦ ha c (by simp [hc])⟩

/-- An index past the end makes no exception. -/
theorem onlyAt_min {ns : List (Node σ)} {index : Nat} (h : OnlyAt index ns) :
    OnlyAt (min index ns.length) ns := by
  intro i c hc hi
  have := (List.getElem?_eq_some_iff.mp hc).1
  exact h i c hc (by omega)

/-- Before the index, and behind it, nothing is started. -/
theorem OnlyAt.split {ns : List (Node σ)} {index : Nat} (h : OnlyAt index ns) :
    (∀ c ∈ ns.take index, c.started = false) ∧ OnlyAt 0 (ns.drop index) := by
  constructor
  · intro c hc
    obtain ⟨i, hi, rfl⟩ := List.mem_iff_getElem.mp hc
    rw [List.length_take] at hi
    exact h i _ (by rw [List.getElem_take]; exact List.getElem?_eq_getElem _) (by omega)
  · intro i c hc hi
    rw [List.getElem?_drop] at hc
    exact h (index + i) c hc (by omega)

/-- Behind the exception no node is started. -/
theorem OnlyAt.behind {ns : List (Node σ)} {index : Nat} (h : OnlyAt index ns) :
    ∀ c ∈ ns.drop (index + 1), c.started = false := by
  intro c hc
  obtain ⟨i, hi⟩ := List.mem_iff_getElem?.mp hc
  rw [List.getElem?_drop] at hi
  exact h _ c hi (by omega)

/-- An open node stays one for a property of leaf states that follows from the other. -/
theorem Open.imp {p q : σ → Prop} {n : Node σ} (h : n.Open p) (hpq : ∀ s, p s → q s) :
    n.Open q := by
  cases n with
  | leaf => exact hpq _ h
  | composite _ _ kind => cases kind <;> exact h
  | decorator => exact h

/-- A resting node that is given a closed life is steady. -/
theorem allSteady_of_resting {n : Node σ} {state : NodeState} (hs : state ≠ .running)
    (hn : n.Resting (L .idle)) (hc : ∀ c ∈ n.children, AllSteady L c) :
    AllSteady L (n.withLife ⟨state, false⟩) := by
  refine everywhere_iff.mpr ⟨⟨?_, ?_, ?_⟩, ?_⟩
  · simp [hs]
  · simp
  · intro _
    exact resting_withLife.mpr hn
  · rw [children_withLife]
    exact hc

/-- A node that waits is steady once it is marked as running. -/
theorem allSteady_of_waiting {n : Node σ} (ho : n.Open (L .suspended)) (hw : n.Waiting)
    (hc : ∀ c ∈ n.children, AllSteady L c) : AllSteady L (n.withLife ⟨.running, true⟩) := by
  refine everywhere_iff.mpr ⟨⟨?_, ?_, ?_⟩, ?_⟩
  · simp
  · intro _
    exact ⟨open_withLife.mpr ho, waiting_withLife.mpr hw⟩
  · simp
  · rw [children_withLife]
    exact hc

/-- An unused subtree is steady if its leaves are idle. -/
theorem allSteady_of_allUnused {n : Node σ} (hn : n.AllUnused)
    (hl : n.Everywhere fun m ↦ ∀ s ∈ m.leaf?, L .idle s) : AllSteady L n := by
  induction n using child_induction with
  | step n ih =>
    have hlife := hn.here.life_eq
    have hquiet (c : Node σ) (hc : c ∈ n.children) : c.started = false := by
      rw [started, (hn.below hc).here.life_eq]
      rfl
    refine everywhere_iff.mpr ⟨⟨?_, ?_, ?_⟩, fun c hc ↦ ih c hc (hn.below hc) (hl.below hc)⟩
    · simp [started, state, hlife, Life.fresh]
    · intro h
      simp [started, hlife, Life.fresh] at h
    · intro _
      cases n with
      | leaf => exact hl.here _ rfl
      | composite => exact ⟨hn.here.2, hquiet⟩
      | decorator => exact ⟨hn.here.2.2.2, fun c hc ↦ hquiet c (Option.mem_toList.mpr hc)⟩

/-- A running node of a steady subtree is a started one. -/
theorem Steady.started_eq_false {n : Node σ} (h : n.Steady L) (hs : n.state ≠ .running) :
    n.started = false := by
  have hn := mt h.started_iff.mp hs
  simpa using hn

/-! ### Stopping -/

/-- A steady child that is aborted if it runs is steady and not started afterwards. -/
theorem quiet_if_running {c : Node σ} (hc : AllSteady L c)
    (ih : ∀ env : Env ω, AllSteady L c → AllSteady L (c.abort B env).1) (env : Env ω) :
    let r := if c.state = .running then c.abort B env else (c, env)
    AllSteady L r.1 ∧ r.1.started = false := by
  split
  · exact ⟨ih env hc, started_abort B c env⟩
  · next hs => exact ⟨hc, hc.here.started_eq_false hs⟩

/-- Aborting all running nodes of a list leaves steady nodes, none of them started. -/
theorem stopRunning_steady {ns : List (Node σ)} (hn : ∀ c ∈ ns, AllSteady L c)
    (ih : ∀ c ∈ ns, ∀ env : Env ω, AllSteady L c → AllSteady L (c.abort B env).1) (env : Env ω) :
    ∀ c ∈ (stopRunning B ns env).1, AllSteady L c ∧ c.started = false := by
  induction ns generalizing env with
  | nil => intro c hc; cases hc
  | cons d rest rest_ih =>
    intro c hc
    rw [stopRunning_cons] at hc
    rcases List.mem_cons.mp hc with rfl | hc
    · exact quiet_if_running (hn d (by simp)) (ih d (by simp)) env
    · exact rest_ih (fun c hc ↦ hn c (by simp [hc])) (fun c hc ↦ ih c (by simp [hc])) _ c hc

/-- Where at most one node of a list is started, aborting that one if it runs is enough. -/
theorem stopRunningAt_steady {ns : List (Node σ)} {index : Nat}
    (hn : ∀ c ∈ ns, AllSteady L c) (ho : OnlyAt index ns)
    (ih : ∀ c ∈ ns, ∀ env : Env ω, AllSteady L c → AllSteady L (c.abort B env).1) (env : Env ω) :
    ∀ c ∈ (stopRunningAt B ns index env).1, AllSteady L c ∧ c.started = false := by
  induction ns generalizing index with
  | nil => intro c hc; cases hc
  | cons d rest rest_ih =>
    intro c hc
    cases index with
    | zero =>
      rw [stopRunningAt_zero] at hc
      rcases List.mem_cons.mp hc with rfl | hc
      · exact quiet_if_running (hn d (by simp)) (ih d (by simp)) env
      · exact ⟨hn c (by simp [hc]), onlyAt_cons_zero.mp ho c hc⟩
    | succ index =>
      obtain ⟨hd, ho⟩ := onlyAt_cons_succ.mp ho
      rw [stopRunningAt_succ] at hc
      rcases List.mem_cons.mp hc with rfl | hc
      · exact ⟨hn c (by simp), hd⟩
      · exact rest_ih (fun c hc ↦ hn c (by simp [hc])) ho (fun c hc ↦ ih c (by simp [hc])) c hc

/-- A steady child that is aborted if it is started is steady and not started afterwards. -/
theorem quiet_if_started {c : Node σ} (hc : AllSteady L c)
    (ih : ∀ env : Env ω, AllSteady L c → AllSteady L (c.abort B env).1) (env : Env ω) :
    let r := if c.started then c.abort B env else (c, env)
    AllSteady L r.1 ∧ r.1.started = false := by
  split
  · exact ⟨ih env hc, started_abort B c env⟩
  · next hs => exact ⟨hc, by simpa using hs⟩

/-- A memory that keeps a cleared scope has no entries. -/
theorem vacant_keep_cleared (m : Memory) (enclosing : ScopeId) (s : Scope) :
    (m.keep enclosing s.cleared).Vacant := by
  intro s' hs
  cases hs
  rfl

/-- Stopping an open node brings it to rest, if aborting keeps its children steady. -/
theorem stop_resting (hB : B.Respects L) {n : Node σ}
    (ho : n.Open fun s ↦ L .suspended s ∨ L .ended s) (hc : ∀ c ∈ n.children, AllSteady L c)
    (ih : ∀ c ∈ n.children, ∀ env : Env ω, AllSteady L c → AllSteady L (c.abort B env).1)
    (env : Env ω) :
    (n.stop B env).1.Resting (L .idle) ∧ ∀ c ∈ (n.stop B env).1.children, AllSteady L c := by
  cases n with
  | leaf tag life state => exact ⟨hB.stop _ _ ho, fun c hc ↦ by cases hc⟩
  | composite tag life kind resume children =>
    have split_all {ns : List (Node σ)} (h : ∀ c ∈ ns, AllSteady L c ∧ c.started = false) :
        (composite tag life kind 0 ns).Resting (L .idle) ∧
          ∀ c ∈ (composite tag life kind 0 ns).children, AllSteady L c :=
      ⟨⟨rfl, fun c hc ↦ (h c hc).2⟩, fun c hc ↦ (h c hc).1⟩
    cases kind with
    | parallel mode => exact split_all (stopRunning_steady hc ih env)
    | sequencer => exact split_all (stopRunningAt_steady hc ho ih env)
    | selector => exact split_all (stopRunningAt_steady hc ho ih env)
  | decorator tag life kind memory child =>
    cases child with
    | none =>
      refine ⟨⟨ho (.inr rfl), ?_⟩, ?_⟩
      · intro c hc
        cases hc
      · intro c hc
        cases hc
    | some child =>
      have hchild : child ∈ (decorator tag life kind memory (some child)).children := by
        simp [children]
      have hq := quiet_if_started (B := B) (hc child hchild) (ih child hchild)
      have split_one {c : Node σ} {m : Memory} (hm : m.Vacant)
          (h : AllSteady L c ∧ c.started = false) :
          (decorator tag life kind m (some c)).Resting (L .idle) ∧
            ∀ d ∈ (decorator tag life kind m (some c)).children, AllSteady L d := by
        refine ⟨⟨hm, ?_⟩, ?_⟩
        · intro d hd
          cases hd
          exact h.2
        · intro d hd
          rw [List.mem_singleton.mp hd]
          exact h.1
      cases kind with
      | «scoped» => exact split_one (vacant_keep_cleared _ _ _) (hq _)
      | invert => exact split_one (ho (.inl (by simp))) (hq env)
      | succeeder => exact split_one (ho (.inl (by simp))) (hq env)
      | loop limit => exact split_one (ho (.inl (by simp))) (hq env)

/-- Aborting keeps a subtree steady. -/
theorem abort_steady (hB : B.Respects L) {n : Node σ} (env : Env ω) (h : AllSteady L n) :
    AllSteady L (n.abort B env).1 := by
  induction n using child_induction generalizing env with
  | step n ih =>
    cases hs : n.started with
    | true =>
      have ho := (h.here.active hs).1
      have hr := stop_resting hB (ho.imp fun _ ↦ .inl) (fun c ↦ h.below)
        (fun c hc env ↦ ih c hc env) env
      rw [abort_of_started hs]
      exact allSteady_of_resting (by simp) hr.1 hr.2
    | false =>
      rw [abort_of_not_started hs]
      exact allSteady_of_resting (by simp) (h.here.resting hs) fun c ↦ h.below

end Node

end BehaviorTree
