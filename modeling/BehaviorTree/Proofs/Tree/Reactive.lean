import BehaviorTree.Proofs.Host.Trace
import BehaviorTree.Proofs.Node.Changes
import BehaviorTree.Proofs.Node.Conditions
import BehaviorTree.Proofs.Node.Selector
import BehaviorTree.Proofs.Tree.Sequencer

/-!
# Composites that react to conditions

A sequencer and a selector remember the child to resume at, and on a tick that resumes they do not
run the conditions before it. They probe those that are flagged, and where a probe says so, a
sequencer fails and a selector starts over. For conditions before one more child this comes to what
a guard does that remembers nothing and looks at all conditions anew on every tick. The two simulate
each other in every course of calls.
-/

namespace BehaviorTree

variable {ο σ ν ω : Type}

namespace Node

open Condition

/-! ### A guard without memory -/

/-- Aborts a node if it is started. -/
def abortStarted (B : Behavior ο σ ω) (n : Node σ) (env : Env ω) : Node σ × Env ω :=
  if n.started then n.abort B env else (n, env)

/-- One tick of a node behind a guard. If the guard opens on the blackboard, the node is run;
otherwise it is aborted if it is started, and the guard answers. -/
def runGuarded (B : Behavior ο σ ω) (opens : Blackboard → Bool) (answer : Status) (n : Node σ)
    (env : Env ω) : Step σ ω :=
  if opens env.board then n.run B env
  else
    let r := n.abortStarted B env
    ⟨answer, r.1, r.2⟩

/-- What a host sees of calls to a node behind a guard, in order. -/
def observeGuarded (B : Behavior ο σ ω) (opens : Blackboard → Bool) (answer : Status) :
    List (Call ω) → Node σ → List (Option Status × Env ω)
  | [], _ => []
  | ⟨.tick, env⟩ :: rest, n =>
    let s := n.runGuarded B opens answer env
    (some s.status, s.env) :: observeGuarded B opens answer rest s.node
  | ⟨.tickWith clock, env⟩ :: rest, n =>
    let s := n.runGuarded B opens answer { env with board := clock.publish env.board }
    (some s.status, s.env) :: observeGuarded B opens answer rest s.node
  | ⟨.stop, env⟩ :: rest, n =>
    let r := n.abortStarted B env
    (none, r.2) :: observeGuarded B opens answer rest r.1

variable {B : Behavior ο σ ω} {n w w₀ : Node σ} {opens : Blackboard → Bool} {answer : Status}

private theorem started_abortStarted (n : Node σ) (env : Env ω) :
    (n.abortStarted B env).1.started = false := by
  unfold abortStarted
  split
  · exact started_abort B n env
  · next hs => simpa using hs

private theorem abortStarted_of_not_started (hn : n.started = false) (env : Env ω) :
    n.abortStarted B env = (n, env) := by
  simp [abortStarted, hn]

private theorem Moved.abortStarted (h : w₀.Moved B w) (env : Env ω) :
    w₀.Moved B (w.abortStarted B env).1 := h.abort_if _ env

private theorem Moved.runGuarded (h : w₀.Moved B w) (env : Env ω) :
    w₀.Moved B (w.runGuarded B opens answer env).node := by
  unfold Node.runGuarded
  split
  · exact h.run env
  · exact h.abortStarted env

/-- Behind a guard that does not answer running, the node is suspended after the ticks that were
answered running, and only after these. -/
theorem life_runGuarded (B : Behavior ο σ ω) (opens : Blackboard → Bool)
    (ha : answer ≠ .running) (w : Node σ) (env : Env ω) :
    let s := w.runGuarded B opens answer env
    (s.status = .running → s.node.life = ⟨.running, true⟩) ∧
      (s.status ≠ .running → s.node.started = false) := by
  unfold runGuarded
  split
  · refine ⟨fun hs ↦ ?_, fun hs ↦ ?_⟩
    · rw [life_run, hs]
      rfl
    · rw [started_run, Status.isRunning_eq_false hs]
  · exact ⟨fun hs ↦ absurd hs ha, fun _ ↦ started_abortStarted w env⟩

/-! ### The simulation -/

/-- Whether a composite over conditions and one more child stands to that child behind a guard as
between two calls: both are suspended, and then the composite would resume at the child, or
neither is. -/
inductive Guards (kind : CompositeKind) (conditions : List (Condition σ)) :
    Node σ → Node σ → Prop where
  | mk {tag : Tag} {life : Life} {k : Nat} {gs : List (Node σ)} {w : Node σ}
      (idle : IdleAll conditions gs)
      (suspended : life.started = true → k = conditions.length ∧ w.life = ⟨.running, true⟩)
      (begins : life.started = false → k = 0 ∧ w.started = false) :
      Guards kind conditions (composite tag life kind k (gs ++ [w])) w

/-- Whether two ticks agree in all that can be seen, and lead to nodes that are related. -/
structure Follows (R : Node σ → Node σ → Prop) (s s' : Step σ ω) : Prop where
  status : s.status = s'.status
  env : s.env = s'.env
  node : R s.node s'.node

variable {kind : CompositeKind} {conditions : List (Condition σ)} {passes : Bool}

/-- No condition is found that does not give the answer if all give it. -/
theorem findIdx?_conditions_eq_none {b : Blackboard} :
    conditions.findIdx? (fun c ↦ c.holds b != passes) = none ↔
      allGive passes conditions b = true := by
  simp [allGive, List.findIdx?_eq_none_iff]

/-- From a condition on that does not give the answer, not all give it. -/
theorem allGive_drop_of_findIdx? {b b' : Blackboard} {first : Nat}
    (hb : ∀ c ∈ conditions, c.holds b' = c.holds b)
    (h : conditions.findIdx? (fun c ↦ c.holds b != passes) = some first) :
    first < conditions.length ∧ allGive passes (conditions.drop first) b' = false := by
  obtain ⟨hlt, hfirst, -⟩ := List.findIdx?_eq_some_iff_getElem.mp h
  have hne : (conditions[first].holds b' == passes) = false := by
    rw [hb _ (List.getElem_mem hlt)]
    simpa using hfirst
  refine ⟨hlt, ?_⟩
  rw [List.drop_eq_getElem_cons hlt, allGive, List.all_cons, hne, Bool.false_and]

private theorem getElem?_guarded {gs : List (Node σ)} (hgs : IdleAll conditions gs) (w : Node σ) :
    (gs ++ [w])[conditions.length]? = some w := by
  rw [hgs.length_eq, List.getElem?_concat_length]

private theorem set_guarded {gs : List (Node σ)} (hgs : IdleAll conditions gs) (w w' : Node σ) :
    (gs ++ [w]).set conditions.length w' = gs ++ [w'] := by
  rw [hgs.length_eq, List.set_append_right _ _ (Nat.le_refl _)]
  simp

/-- A composite whose run over its children comes out as a tick behind the guard follows the
tick. -/
theorem follows_of_reaches {r : Scan σ ω} {s : Step σ ω} (h : Reaches conditions r s)
    (hrunning : s.status = .running → s.node.life = ⟨.running, true⟩)
    (hended : s.status ≠ .running → s.node.started = false) (tag : Tag) :
    Follows (Guards kind conditions)
      ⟨r.status, composite tag ⟨.ofStatus r.status, r.status.isRunning⟩ kind
        (if r.status = .running then r.passed else 0) r.children, r.env⟩ s := by
  obtain ⟨gs, hgs, hchildren⟩ := h.children
  refine ⟨h.status, h.env, ?_⟩
  simp only [hchildren]
  by_cases hs : r.status = .running
  · rw [if_pos hs, hs]
    exact .mk hgs (fun _ ↦ ⟨h.passed hs, hrunning (h.status ▸ hs)⟩) fun hl ↦ nomatch hl
  · rw [if_neg hs, Status.isRunning_eq_false hs]
    exact .mk hgs (fun hl ↦ nomatch hl) fun _ ↦ ⟨rfl, hended (h.status ▸ hs)⟩

section

variable (hchecks : ∀ c ∈ conditions, B.Checks c.leaf c.holds) {gs : List (Node σ)}
  (hgs : IdleAll conditions gs)

include hchecks hgs

/-- From the first child on, a run comes out as a tick of a child that is not started. -/
theorem reaches_of_not_started (passes : Bool) (hw : w.started = false) (env : Env ω) :
    Reaches conditions (scanFrom (run B) (.ofBool passes) 0 (gs ++ [w]) env)
      (w.runGuarded B (allGive passes conditions) (.ofBool !passes) env) := by
  have h := reaches_scanFrom hchecks hgs passes w (Nat.zero_le _) env
  rw [pastConditions, List.drop_zero] at h
  rwa [runGuarded, abortStarted_of_not_started hw]

/-- From the child itself on, it comes out as a tick while the conditions let the child pass. -/
theorem reaches_of_allGive (w : Node σ) {env : Env ω}
    (hpass : allGive passes conditions env.board = true) :
    Reaches conditions (scanFrom (run B) (.ofBool passes) conditions.length (gs ++ [w]) env)
      (w.runGuarded B (allGive passes conditions) (.ofBool !passes) env) := by
  have h := reaches_scanFrom hchecks hgs passes w (Nat.le_refl _) env
  have hnil : allGive passes ([] : List (Condition σ)) env.board = true := rfl
  rw [pastConditions, List.drop_length, if_pos hnil] at h
  rwa [runGuarded, if_pos hpass]

end

/-- Whether a composite, where a probe finds no child before the one to resume at, runs its children
from there on as long as they pass, and does nothing else. -/
def Resumes (B : Behavior ο σ ω) (kind : CompositeKind) (flag : Flags → Bool) (passes : Bool) :
    Prop :=
  ∀ (tag : Tag) {life : Life} {k : Nat} {ns : List (Node σ)} {env : Env ω},
    (life.started = false → k = 0) → k ≤ ns.length →
    probeBefore B flag (.ofBool !passes) k ns env = (none, env) →
    (composite tag life kind k ns).run B env =
      let r := scanFrom (run B) (.ofBool passes) k ns env
      ⟨r.status, composite tag ⟨.ofStatus r.status, r.status.isRunning⟩ kind
        (if r.status = .running then r.passed else 0) r.children, r.env⟩

private theorem resumes_sequencer (B : Behavior ο σ ω) :
    Resumes B .sequencer (·.reEvaluate) true := by
  intro tag life k ns env hbegins hk hprobe
  have hprobe : probeBefore B (·.reEvaluate) .failure k ns env = (none, env) := hprobe
  have hrun := run_sequencer_eq B tag hbegins ns env
  simp only [workSequencer_eq, hprobe, Nat.min_eq_left hk] at hrun
  rw [hrun, settle_halted (halted_scanFrom hk env) tag _ (.inl rfl)]
  rfl

private theorem resumes_selector (B : Behavior ο σ ω) : Resumes B .selector (·.hijack) false := by
  intro tag life k ns env hbegins hk hprobe
  have hprobe : probeBefore B (·.hijack) .success k ns env = (none, env) := hprobe
  have hrun := run_selector_eq B tag hbegins ns env
  simp only [workSelector_eq, hprobe, Nat.min_eq_left hk] at hrun
  rw [hrun]
  rfl

/-- A composite that is suspended and stopped aborts the child at which it would resume. -/
theorem stop_guarded {gs : List (Node σ)} (hgs : IdleAll conditions gs)
    (hlife : w.life = ⟨.running, true⟩) (hkind : kind = .sequencer ∨ kind = .selector) (tag : Tag)
    (life : Life) (env : Env ω) :
    let r := w.abort B env
    (composite tag life kind conditions.length (gs ++ [w])).stop B env =
      (composite tag life kind 0 (gs ++ [r.1]), r.2) := by
  have hstate : w.state = .running := congrArg Life.state hlife
  have hstop := stopRunningAt_eq_set (B := B) (getElem?_guarded hgs w) hstate env
  rw [set_guarded hgs] at hstop
  rcases hkind with rfl | rfl <;> simp only [stop, hstop]

/-- Where a guard does not open, a suspended node is aborted. -/
theorem runGuarded_of_closed (hlife : w.life = ⟨.running, true⟩) {env : Env ω}
    (hclosed : opens env.board ≠ true) :
    let r := w.abort B env
    w.runGuarded B opens answer env = ⟨answer, r.1, r.2⟩ := by
  have hs : w.started = true := congrArg Life.started hlife
  rw [runGuarded, if_neg hclosed, abortStarted, if_pos hs]

/-- A tick of a composite over conditions that have the flag comes out as a tick behind the guard,
if it does so where the composite is suspended and a condition says that the child must not go
on. -/
theorem Guards.run {flag : Flags → Bool} (hresumes : Resumes B kind flag passes)
    (hchecks : ∀ c ∈ conditions, B.Checks c.leaf c.holds)
    (hflags : ∀ c ∈ conditions, flag c.tag.flags = true) (h : Guards kind conditions n w)
    (env : Env ω)
    (hfound : ∀ {tag : Tag} {life : Life} {gs : List (Node σ)} {first : Nat},
      life.started = true → IdleAll conditions gs → w.life = ⟨.running, true⟩ →
      conditions.findIdx? (fun c ↦ c.holds env.board != passes) = some first →
      probeBefore B flag (.ofBool !passes) conditions.length (gs ++ [w]) env = (some first, env) →
      let r := w.abort B env
      Follows (Guards kind conditions)
        ((composite tag life kind conditions.length (gs ++ [w])).run B env)
        ⟨.ofBool !passes, r.1, r.2⟩) :
    Follows (Guards kind conditions) (n.run B env)
      (w.runGuarded B (allGive passes conditions) (.ofBool !passes) env) := by
  obtain @⟨tag, life, k, gs, w, hgs, hsuspended, hbegins⟩ := h
  have hzero (hl : life.started = false) : k = 0 := (hbegins hl).1
  obtain ⟨hrunning, hended⟩ := life_runGuarded B (allGive passes conditions)
    (Status.ofBool_ne_running !passes) w env
  -- A composite that is not started runs the conditions, one that is suspended probes them.
  cases hl : life.started with
  | false =>
    obtain ⟨rfl, hw⟩ := hbegins hl
    rw [hresumes tag hzero (Nat.zero_le _) (by simp [probeBefore, probe])]
    exact follows_of_reaches (reaches_of_not_started hchecks hgs passes hw env) hrunning hended tag
  | true =>
    obtain ⟨rfl, hlife⟩ := hsuspended hl
    have hprobe := probeBefore_conditions hchecks hgs passes hflags w env
    cases hfind : conditions.findIdx? fun c ↦ c.holds env.board != passes with
    | none =>
      have hk : conditions.length ≤ (gs ++ [w]).length := by
        rw [hgs.length_eq, List.length_append]
        exact Nat.le_add_right _ _
      have hpass := findIdx?_conditions_eq_none.mp hfind
      rw [hresumes tag hzero hk (hfind ▸ hprobe)]
      exact follows_of_reaches (reaches_of_allGive hchecks hgs w hpass) hrunning hended tag
    | some first =>
      have hclosed : allGive passes conditions env.board ≠ true := by
        rw [Ne, ← findIdx?_conditions_eq_none, hfind]
        exact Option.some_ne_none first
      rw [runGuarded_of_closed hlife hclosed]
      exact hfound hl hgs hlife hfind (hfind ▸ hprobe)

/-- A tick of a sequencer over conditions that are checked again. -/
theorem Guards.run_sequencer (hchecks : ∀ c ∈ conditions, B.Checks c.leaf c.holds)
    (hflags : ∀ c ∈ conditions, c.tag.flags.reEvaluate = true)
    (h : Guards .sequencer conditions n w) (env : Env ω) :
    Follows (Guards .sequencer conditions) (n.run B env)
      (w.runGuarded B (allGive true conditions) .failure env) := by
  refine h.run (resumes_sequencer B) hchecks hflags env
    fun {tag life gs first} hl hgs hlife hfind hprobe ↦ ?_
  have hprobe : probeBefore B (·.reEvaluate) .failure conditions.length (gs ++ [w]) env =
      (some first, env) := hprobe
  have hk : min conditions.length (gs ++ [w]).length = conditions.length := by
    simp [hgs.length_eq]
  have hbegins : life.started = false → conditions.length = 0 := by simp [hl]
  have hrun := run_sequencer_eq B tag hbegins (gs ++ [w]) env
  simp only [workSequencer_eq, hprobe, hk] at hrun
  rw [settle_of_ne_running (by simp), stop_guarded hgs hlife (.inl rfl)] at hrun
  rw [hrun]
  exact ⟨rfl, rfl, .mk hgs (fun hl ↦ nomatch hl) fun _ ↦ ⟨rfl, started_abort B w env⟩⟩

/-- A tick of a selector over conditions that may take over, if none of them looks different after
the child was aborted. -/
theorem Guards.run_selector (hchecks : ∀ c ∈ conditions, B.Checks c.leaf c.holds)
    (hflags : ∀ c ∈ conditions, c.tag.flags.hijack = true)
    (h : Guards .selector conditions n w) (env : Env ω)
    (habort : ∀ c ∈ conditions, c.holds (w.abort B env).2.board = c.holds env.board) :
    Follows (Guards .selector conditions) (n.run B env)
      (w.runGuarded B (allGive false conditions) .success env) := by
  refine h.run (resumes_selector B) hchecks hflags env
    fun {tag life gs first} hl hgs hlife hfind hprobe ↦ ?_
  have hprobe : probeBefore B (·.hijack) .success conditions.length (gs ++ [w]) env =
      (some first, env) := hprobe
  have hk : min conditions.length (gs ++ [w]).length = conditions.length := by
    simp [hgs.length_eq]
  have habortAt := abortAt_eq_set (B := B) (getElem?_guarded hgs w) env
  rw [set_guarded hgs] at habortAt
  have hbegins : life.started = false → conditions.length = 0 := by simp [hl]
  have hrun := run_selector_eq B tag hbegins (gs ++ [w]) env
  simp only [workSelector_eq, hprobe, hk, habortAt] at hrun
  -- The conditions are run from the one that was found on, on the blackboard that the abort left.
  obtain ⟨hlt, hdrop⟩ := allGive_drop_of_findIdx? habort hfind
  have hreaches := reaches_scanFrom hchecks hgs false (w.abort B env).1 (Nat.le_of_lt hlt)
    (w.abort B env).2
  rw [pastConditions, if_neg (by simp [hdrop])] at hreaches
  rw [hrun]
  exact follows_of_reaches hreaches (fun hs ↦ absurd hs (Status.ofBool_ne_running true))
    (fun _ ↦ started_abort B w env) tag

/-- An abort of a composite over conditions. -/
theorem Guards.abort (hkind : kind = .sequencer ∨ kind = .selector)
    (h : Guards kind conditions n w) (env : Env ω) :
    let r := n.abort B env
    let r' := w.abortStarted B env
    r.2 = r'.2 ∧ Guards kind conditions r.1 r'.1 := by
  obtain @⟨tag, life, k, gs, w, hgs, hsuspended, hbegins⟩ := h
  cases hl : life.started with
  | false =>
    obtain ⟨rfl, hw⟩ := hbegins hl
    rw [abort_of_not_started (show (composite tag life kind 0 (gs ++ [w])).started = false from hl),
      abortStarted_of_not_started hw]
    exact ⟨rfl, .mk hgs (fun hl ↦ nomatch hl) fun _ ↦ ⟨rfl, hw⟩⟩
  | true =>
    obtain ⟨rfl, hlife⟩ := hsuspended hl
    have hs : w.started = true := congrArg Life.started hlife
    rw [abort_of_started (n := composite tag life kind conditions.length (gs ++ [w])) hl,
      stop_guarded hgs hlife hkind, abortStarted, if_pos hs]
    exact ⟨rfl, .mk hgs (fun hl ↦ nomatch hl) fun _ ↦ ⟨rfl, started_abort B w env⟩⟩

end Node

namespace Tree

open Node Condition

variable {B : Behavior ο σ ω} {w : Node σ} {conditions : List (Condition σ)}

/-- A tree whose root does on every call what a node does behind a guard looks like it in every
course of calls. -/
theorem observeAll_eq_observeGuarded {R : Node σ → Node σ → Prop} {opens : Blackboard → Bool}
    {answer : Status}
    (hrun : ∀ {n m}, R n m → ∀ env, Follows R (n.run B env) (m.runGuarded B opens answer env))
    (habort : ∀ {n m}, R n m → ∀ env, (n.abort B env).2 = (m.abortStarted B env).2 ∧
      R (n.abort B env).1 (m.abortStarted B env).1)
    (calls : List (Call ω)) {t : Tree ο σ} (h : R t.root w) :
    t.observeAll B calls = w.observeGuarded B opens answer calls := by
  induction calls generalizing t w with
  | nil => rfl
  | cons call rest ih =>
    have htick (env : Env ω) :
        (some (t.tick B env).status, (t.tick B env).env) ::
            observeAll B rest (t.tick B env).tree =
          let s := w.runGuarded B opens answer env
          (some s.status, s.env) :: s.node.observeGuarded B opens answer rest := by
      obtain ⟨hstatus, henv, hnode⟩ := hrun h env
      have hrest := ih (t := (t.tick B env).tree) hnode
      exact congrArg₂ (· :: ·) (Prod.ext (congrArg some hstatus) henv) hrest
    obtain ⟨request, env⟩ := call
    cases request with
    | tick => exact htick env
    | tickWith clock => exact htick _
    | stop =>
      obtain ⟨henv, hnode⟩ := habort h env
      have hrest := ih (t := (t.stop B env).1) hnode
      exact congrArg₂ (· :: ·) (congrArg (Prod.mk none) henv) hrest

/-- A new composite over conditions and a node that is not started stands to the node as between
two calls. -/
theorem guards_newComposite (hw : w.started = false) (kind : CompositeKind) (tag : Tag) :
    Guards kind conditions (.newComposite tag kind (conditions.map Condition.node ++ [w])) w :=
  .mk (idleAll_node conditions) (fun hl ↦ nomatch hl) fun _ ↦ ⟨rfl, hw⟩

/-- A sequencer over conditions that are checked again, and one more child. -/
theorem observeAll_sequencer (hchecks : ∀ c ∈ conditions, B.Checks c.leaf c.holds)
    (hflags : ∀ c ∈ conditions, c.tag.flags.reEvaluate = true) (hw : w.started = false)
    (t : Tree ο σ) (tag : Tag) (calls : List (Call ω)) :
    let root := Node.newComposite tag .sequencer (conditions.map Condition.node ++ [w])
    { t with root }.observeAll B calls =
      w.observeGuarded B (allGive true conditions) .failure calls :=
  observeAll_eq_observeGuarded (fun h env ↦ h.run_sequencer hchecks hflags env)
    (fun h env ↦ h.abort (.inl rfl) env) calls (guards_newComposite hw .sequencer tag)

/-- A selector over conditions that may take over, and one more child: whatever the child has come
to, none of the conditions looks different after an abort of it. -/
theorem observeAll_selector (hchecks : ∀ c ∈ conditions, B.Checks c.leaf c.holds)
    (hflags : ∀ c ∈ conditions, c.tag.flags.hijack = true) (hw : w.started = false)
    (habort : ∀ m, w.Moved B m → ∀ env, ∀ c ∈ conditions,
      c.holds (m.abort B env).2.board = c.holds env.board)
    (t : Tree ο σ) (tag : Tag) (calls : List (Call ω)) :
    let root := Node.newComposite tag .selector (conditions.map Condition.node ++ [w])
    { t with root }.observeAll B calls =
      w.observeGuarded B (allGive false conditions) .success calls := by
  let R (n m : Node σ) : Prop := Guards .selector conditions n m ∧ w.Moved B m
  refine observeAll_eq_observeGuarded (R := R) (fun {n m} ⟨h, hm⟩ env ↦ ?_) (fun ⟨h, hm⟩ env ↦ ?_)
    calls ⟨guards_newComposite hw .selector tag, .refl⟩
  · obtain ⟨hstatus, henv, hnode⟩ := h.run_selector hchecks hflags env (habort m hm env)
    exact ⟨hstatus, henv, hnode, hm.runGuarded env⟩
  · obtain ⟨henv, hnode⟩ := h.abort (B := B) (.inr rfl) env
    exact ⟨henv, hnode, hm.abortStarted env⟩

end Tree

/-! ### Traces of some leaves -/

/-- A trace, and a call of a hook after it if the leaf has a name. -/
def noteSome (trace : List (HookEvent ν)) (name : Option ν) (hook : Hook) (seen : List Entries) :
    List (HookEvent ν) :=
  trace ++ name.toList.map fun leaf ↦ ⟨leaf, hook, seen⟩

/-- The hooks of leaves of which some have names, with each call of a hook of these noted in a trace
beside the world. -/
def Behavior.tracedSome (B : Behavior ο σ ω) :
    Behavior ο (Option ν × σ) (ω × List (HookEvent ν)) where
  awake owner s w :=
    let r := B.awake owner s.2 w.1
    (r.1.map fun state ↦ (s.1, state), (r.2, noteSome w.2 s.1 .awake []))
  start s b w :=
    let e := B.start s.2 b w.1
    ⟨(s.1, e.state), e.entries, (e.world, noteSome w.2 s.1 .start b.contents)⟩
  run s b w :=
    let r := B.run s.2 b w.1
    (r.1, ⟨(s.1, r.2.state), r.2.entries, (r.2.world, noteSome w.2 s.1 .run b.contents)⟩)
  stop s b w :=
    let e := B.stop s.2 b w.1
    ⟨(s.1, e.state), e.entries, (e.world, noteSome w.2 s.1 .stop b.contents)⟩
  evaluate s b w :=
    let r := B.evaluate s.2 b w.1
    (r.1, (r.2, noteSome w.2 s.1 .evaluate b.contents))

/-- The condition on a leaf without a name. -/
def Condition.silent (c : Condition σ) : Condition (Option ν × σ) :=
  ⟨c.tag, (none, c.leaf), c.holds⟩

variable {B : Behavior ο σ ω}

/-- A condition without a name leaves no trace. -/
theorem Behavior.Checks.silent {c : Condition σ} (h : B.Checks c.leaf c.holds) :
    (B.tracedSome : Behavior ο (Option ν × σ) _).Checks c.silent.leaf c.holds where
  start b w := by simp [tracedSome, Condition.silent, h.start, noteSome]
  run b w := by simp [tracedSome, Condition.silent, h.run, noteSome]
  stop b w := by simp [tracedSome, Condition.silent, h.stop, noteSome]
  evaluate b w := by simp [tracedSome, Condition.silent, h.evaluate, noteSome]

private theorem Behavior.StopsSparing.tracedSome {quiet : σ → Prop} {keys : String → Prop}
    (h : B.StopsSparing quiet keys) :
    (B.tracedSome : Behavior ο (Option ν × σ) _).StopsSparing (fun s ↦ quiet s.2) keys where
  start s b w := h.start s.2 b w.1
  run s b w := h.run s.2 b w.1
  stop s b w := h.stop s.2 b w.1

namespace Tree

open Node Condition

/-- Conditions before a node that was not started, each of them flagged: in every course of calls,
however the blackboard changes between them, the replies are those of a guard without memory before
the node, and so are the calls of hooks of the node's leaves, with what they see, and the
blackboards. Under a sequencer the guard opens while all conditions hold, and fails otherwise. Under
a selector it opens while none does, and succeeds otherwise, provided that the hooks that close an
activation leave the keys alone that the conditions read. -/
theorem flagged_conditions_react (B : Behavior ο σ ω) {conditions : List (Condition σ)}
    (hchecks : ∀ c ∈ conditions, B.Checks c.leaf c.holds) {w : Node (Option ν × σ)}
    (hw : w.started = false) (t : Tree ο (Option ν × σ)) (tag : Tag)
    (calls : List (Call (ω × List (HookEvent ν)))) :
    let children := conditions.map (fun c ↦ c.silent.node) ++ [w]
    ((∀ c ∈ conditions, c.tag.flags.reEvaluate = true) →
      { t with root := .newComposite tag .sequencer children }.observeAll B.tracedSome calls =
        w.observeGuarded B.tracedSome (fun b ↦ conditions.all (·.holds b)) .failure calls) ∧
    ((∀ c ∈ conditions, c.tag.flags.hijack = true) →
      ∀ {quiet : σ → Prop} {keys : String → Prop}, B.StopsSparing quiet keys →
        (∀ s ∈ w.states, quiet s.2) → (∀ c ∈ conditions, ReadsOnly keys c.holds) →
      { t with root := .newComposite tag .selector children }.observeAll B.tracedSome calls =
        w.observeGuarded B.tracedSome (fun b ↦ !conditions.any (·.holds b)) .success calls) := by
  intro children
  have hsilent {P : Condition (Option ν × σ) → Prop} (h : ∀ c ∈ conditions, P c.silent) :
      ∀ c ∈ conditions.map silent, P c := List.forall_mem_map.mpr h
  have hchildren : children = (conditions.map silent).map Condition.node ++ [w] := by
    rw [List.map_map]
    rfl
  have hchecks' := hsilent (P := fun c ↦ B.tracedSome.Checks c.leaf c.holds)
    fun c hc ↦ (hchecks c hc).silent
  rw [hchildren]
  constructor
  · intro hflags
    have hopens : (fun b ↦ conditions.all (·.holds b)) =
        allGive true (conditions.map (silent (ν := ν))) := by
      funext b
      simp [allGive, silent, List.all_map, Function.comp_def]
    rw [hopens]
    exact observeAll_sequencer hchecks' (hsilent hflags) hw t tag calls
  · intro hflags quiet keys hstops hquiet hreads
    have hopens : (fun b ↦ !conditions.any (·.holds b)) =
        allGive false (conditions.map (silent (ν := ν))) := by
      funext b
      simp [allGive, silent, List.all_map, Function.comp_def, List.not_any_eq_all_not]
    rw [hopens]
    refine observeAll_selector hchecks' (hsilent hflags) hw (fun m hm env ↦ ?_) t tag calls
    have hm := hm.states_quiet hstops.tracedSome hquiet
    exact hsilent fun c hc ↦ holds_abort hstops.tracedSome hm (hreads c hc) env

/-- A wait that goes on while there is an alarm, and one that goes on while there is none. -/
theorem flagged_conditions_react_alarm :
    let alarm : Condition Leaf :=
      ⟨⟨.ofNat 1, "alarm", .zero, ⟨true, true⟩⟩, .condition fun b ↦ .ok (b.contains "alarm"),
        (·.contains "alarm")⟩
    let w := Node.newLeaf (.plain (.ofNat 2) "wait") (some "wait", Leaf.wait (.ofSeconds 2))
    let t : Tree Owner (Option String × Leaf) := ⟨w, [], none, false, none⟩
    let root kind := Node.newComposite (.plain (.ofNat 0) "root") kind [alarm.silent.node, w]
    let board := (Scope.empty ⟨0⟩).alone
    let env board : Env (World × List (HookEvent String)) := ⟨⟨(.initial, []), ⟨1⟩⟩, board⟩
    let calls : List (Call (World × List (HookEvent String))) :=
      [⟨.tickWith ⟨7, 1⟩, env (board.setBool "alarm" true)⟩, ⟨.tick, env board⟩, ⟨.stop, env board⟩]
    { t with root := root .sequencer }.observeAll Leaf.behavior.tracedSome calls =
        w.observeGuarded Leaf.behavior.tracedSome (fun b ↦ [alarm].all (·.holds b)) .failure
          calls ∧
      { t with root := root .selector }.observeAll Leaf.behavior.tracedSome calls =
        w.observeGuarded Leaf.behavior.tracedSome (fun b ↦ !([alarm].any (·.holds b))) .success
          calls := by
  intro alarm w t root board env calls
  have hchecks : ∀ c ∈ [alarm], Leaf.behavior.Checks c.leaf c.holds :=
    List.forall_mem_singleton.mpr (Leaf.checks_condition _)
  have hreads : ReadsOnly (· = "alarm") (·.contains "alarm") := by
    intro b e e' he
    have hlocal : e["alarm"]? = e'["alarm"]? := he "alarm" rfl
    simp only [Blackboard.contains, Blackboard.value?_eq_or, Blackboard.localValue?,
      Blackboard.entries_withEntries, Blackboard.enclosing_withEntries, hlocal]
  have hstops : Leaf.behavior.StopsSparing (∃ x, · = .wait x) (· = "alarm") := by
    refine ⟨?_, ?_, ?_⟩
    · rintro _ b world ⟨x, rfl⟩
      exact ⟨_, rfl⟩
    · rintro _ b world ⟨x, rfl⟩
      show ∃ y, (Leaf.attempt ..).2.state = _
      unfold Leaf.attempt
      split
      · exact ⟨_, rfl⟩
      · exact ⟨_, rfl⟩
    · rintro _ b world ⟨x, rfl⟩
      exact ⟨⟨_, rfl⟩, fun _ _ ↦ rfl⟩
  obtain ⟨hsequencer, hselector⟩ := flagged_conditions_react Leaf.behavior hchecks
    (show w.started = false from rfl) t (.plain (.ofNat 0) "root") calls
  refine ⟨hsequencer (by decide), hselector (by decide) hstops ?_ ?_⟩
  · exact List.forall_mem_singleton.mpr ⟨_, rfl⟩
  · exact List.forall_mem_singleton.mpr hreads

end Tree

end BehaviorTree
