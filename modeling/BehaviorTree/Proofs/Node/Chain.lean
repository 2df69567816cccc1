import BehaviorTree.Leaf.Basic
import BehaviorTree.Proofs.Node.Moved
import BehaviorTree.Proofs.Scope.Probing

/-!
# Chains of decorators above a test

Below decorators that do not repeat their child, down to a leaf that tests what is visible, a probe
and a run come to the same answer, and a run leaves the blackboard as it is. A run steps into every
scope on the way and a probe only into those with entries; but no test writes, and every activation
ends with the run that began it, so between runs all scopes are empty and the leaf sees the same
either way.
-/

namespace BehaviorTree

variable {ο σ ω : Type}

/-- Hooks that only test the blackboard on a leaf: a run answers what a probe answers and is not
suspended, nothing but the world changes, and the answer is up to what is visible. -/
structure Behavior.Tests (B : Behavior ο σ ω) (s : σ) : Prop where
  start : ∀ b w, B.start s b w = ⟨s, b.entries, w⟩
  run : ∀ b w, B.run s b w = ((B.evaluate s b w).1, ⟨s, b.entries, (B.evaluate s b w).2⟩)
  stop : ∀ b w, B.stop s b w = ⟨s, b.entries, w⟩
  ends : ∀ b w, (B.evaluate s b w).1 ≠ .running
  visible : ∀ {b b'} w, (∀ key, b.value? key = b'.value? key) →
    B.evaluate s b w = B.evaluate s b' w

namespace Leaf

/-- Whether a leaf is a condition on what is visible, or the comparison of a key. -/
def IsTest : Leaf → Prop
  | condition holds => ∀ b b' : Blackboard, (∀ key, b.value? key = b'.value? key) →
      holds b = holds b'
  | compareValue .. => True
  | _ => False

/-- A check does not suspend. -/
theorem check_ne_running (test : Except AccessError Bool) (w : World) :
    (check test w).1 ≠ .running := by
  cases test with
  | ok holds => cases holds <;> simp [check, Status.ofBool]
  | error e => simp [check]

private theorem IsTest.tests {x : Leaf} (h : x.IsTest) : behavior.Tests x := by
  cases x with
  | condition holds =>
    exact ⟨fun _ _ ↦ rfl, fun _ _ ↦ rfl, fun _ _ ↦ rfl, fun b w ↦ check_ne_running (holds b) w,
      fun w hv ↦ congrArg (check · w) (h _ _ hv)⟩
  | compareValue key expected =>
    refine ⟨fun _ _ ↦ rfl, fun _ _ ↦ rfl, fun _ _ ↦ rfl, fun b w ↦ ?_, fun {b b'} w hv ↦ ?_⟩
    · exact check_ne_running (.ok (visibleIs b key expected)) w
    · have hsame : visibleIs b key expected = visibleIs b' key expected := by
        rw [visibleIs, hv, visibleIs]
      exact congrArg (fun holds ↦ (Status.ofBool holds, w)) hsame
  | action | wait | setValue | patrol | engage | script => cases h

end Leaf

namespace Node

/-- Whether a node is a chain of decorators that do not repeat their child, down to a leaf of some
sort or to an empty place. -/
inductive Chain (P : σ → Prop) : Node σ → Prop where
  | leaf (tag : Tag) (life : Life) {state : σ} (h : P state) : Chain P (leaf tag life state)
  | empty (tag : Tag) (life : Life) {kind : DecoratorKind} (hk : ∀ limit, kind ≠ .loop limit)
      (memory : Memory) : Chain P (decorator tag life kind memory none)
  | link (tag : Tag) (life : Life) {kind : DecoratorKind} (hk : ∀ limit, kind ≠ .loop limit)
      (memory : Memory) {child : Node σ} (h : Chain P child) :
      Chain P (decorator tag life kind memory (some child))

/-- Whether a node is such a chain down to a test, with no activation open and nothing in the stored
scopes. -/
inductive AtRest (B : Behavior ο σ ω) : Node σ → Prop where
  | leaf (tag : Tag) (state : NodeState) {s : σ} (h : B.Tests s) :
      AtRest B (leaf tag ⟨state, false⟩ s)
  | empty (tag : Tag) (state : NodeState) {kind : DecoratorKind}
      (hk : ∀ limit, kind ≠ .loop limit) (memory : Memory) :
      AtRest B (decorator tag ⟨state, false⟩ kind memory none)
  | link (tag : Tag) (state : NodeState) {kind : DecoratorKind} (hk : ∀ limit, kind ≠ .loop limit)
      {memory : Memory} (hm : memory.Vacant) {child : Node σ} (h : AtRest B child) :
      AtRest B (decorator tag ⟨state, false⟩ kind memory (some child))

variable {B : Behavior ο σ ω} {n m : Node σ}

namespace AtRest

private theorem started_eq (h : AtRest B n) : n.started = false := by
  cases h <;> rfl

private theorem withLife (h : AtRest B n) (state : NodeState) :
    AtRest B (n.withLife ⟨state, false⟩) := by
  cases h with
  | leaf tag _ h => exact .leaf tag state h
  | empty tag _ hk memory => exact .empty tag state hk memory
  | link tag _ hk hm h => exact .link tag state hk hm h

/-- An unused chain down to a test is at rest. -/
theorem of_unused {P : σ → Prop} (hP : ∀ s, P s → B.Tests s) (hn : n.Chain P) (hu : n.AllUnused) :
    AtRest B n := by
  induction hn with
  | leaf tag life h =>
    obtain rfl : life = .fresh := hu.here
    exact .leaf tag _ (hP _ h)
  | empty tag life hk memory =>
    obtain ⟨rfl, -⟩ := hu.here
    exact .empty tag _ hk memory
  | link tag life hk memory h ih =>
    obtain ⟨rfl, -, -, hm⟩ := hu.here
    exact .link tag _ hk hm (ih (hu.below (by simp [children])))

/-- A probe of a chain at rest is up to what is visible. -/
theorem evaluate_congr (h : AtRest B n) {b b' : Blackboard}
    (hv : ∀ key, b.value? key = b'.value? key) (w : ω) : n.evaluate B b w = n.evaluate B b' w := by
  induction h with
  | leaf tag state h => exact h.visible w hv
  | empty => rfl
  | @link tag state kind hk memory hm child h ih =>
    cases kind with
    | invert => simp only [evaluate, ih]
    | succeeder => simp only [evaluate, ih]
    | loop limit => exact absurd rfl (hk limit)
    | «scoped» => simpa only [evaluate, Memory.probeBoard_of_vacant hm] using ih

end AtRest

/-- Whether a step is the one that a probe of the node foretells: it ends with the answer of the
probe, leaves the blackboard as it is, and leaves the chain at rest. -/
structure Foretold (B : Behavior ο σ ω) (n : Node σ) (env : Env ω) (s : Step σ ω) : Prop where
  answer : n.evaluate B env.board env.world = (s.status, s.env.world)
  board : s.env.board = env.board
  ends : s.status ≠ .running
  node : AtRest B s.node

/-- When a link of a chain comes to an end there is nothing to stop: its child is at rest. In its
scope nothing remains. -/
theorem foretold_settle {env env' : Env ω} {status : Status}
    (hanswer : n.evaluate B env.board env.world = (status, env'.world))
    (hboard : env'.board = env.board) (hs : status ≠ .running) (tag : Tag) (state : NodeState)
    {kind : DecoratorKind} (hk : ∀ limit, kind ≠ .loop limit) (memory : Memory)
    (hm : kind ≠ .scoped → memory.Vacant) {c : Node σ} (hc : AtRest B c) :
    Foretold B n env
      (settle B ⟨status, decorator tag ⟨state, true⟩ kind memory (some c), env'⟩) := by
  have hstarted := hc.started_eq
  rw [settle_of_ne_running hs]
  cases kind with
  | loop limit => exact absurd rfl (hk limit)
  | invert =>
    simp only [stop, hstarted, Bool.false_eq_true, if_false]
    exact ⟨hanswer, hboard, hs, .link tag _ hk (hm (by simp)) hc⟩
  | succeeder =>
    simp only [stop, hstarted, Bool.false_eq_true, if_false]
    exact ⟨hanswer, hboard, hs, .link tag _ hk (hm (by simp)) hc⟩
  | «scoped» =>
    simp only [stop, hstarted, Bool.false_eq_true, if_false]
    have hworld : (env'.enter memory).world = env'.world := env'.world_enter memory
    refine ⟨hanswer.trans (congrArg (status, ·) hworld.symm), hboard, hs,
      .link tag _ hk (fun s hs ↦ ?_) hc⟩
    obtain rfl := Option.some.inj hs
    rfl

/-- A run of a chain at rest is foretold by a probe. -/
theorem AtRest.run (h : AtRest B n) (env : Env ω) : Foretold B n env (n.run B env) := by
  induction h generalizing env with
  | @leaf tag state s h =>
    have hrun : (Node.leaf tag ⟨state, false⟩ s).run B env =
        settle B ⟨(B.evaluate s env.board env.world).1, Node.leaf tag ⟨state, true⟩ s,
          { env with world := (B.evaluate s env.board env.world).2 }⟩ := by
      have hbegin : (Node.leaf tag ⟨state, false⟩ s).begin B env =
          (Node.leaf tag ⟨state, true⟩ s, env) := by
        simp only [begin, started, life, h.start]
        rfl
      simp only [run_eq, advance, hbegin, work, h.run]
      rfl
    have hends := h.ends env.board env.world
    rw [hrun, settle_of_ne_running hends]
    simp only [stop, h.stop]
    exact ⟨rfl, rfl, hends, .leaf tag _ h⟩
  | empty tag state hk memory =>
    exact ⟨rfl, rfl, Status.noConfusion, .empty tag .success hk { memory with count := 0 }⟩
  | @link tag state kind hk memory hm child h ih =>
    rw [run_eq]
    let begun : Memory := { memory with count := 0 }
    have hbegun : begun.Vacant := hm
    cases kind with
    | loop limit => exact absurd rfl (hk limit)
    | invert =>
      obtain ⟨hanswer, hboard, hends, hnode⟩ := ih env
      have hinverted : (decorator tag ⟨state, false⟩ .invert memory (some child)).evaluate B
          env.board env.world = ((child.run B env).status.invert, (child.run B env).env.world) := by
        rw [evaluate, hanswer]
      have hends := mt Status.invert_eq_running_iff.mp hends
      exact foretold_settle hinverted hboard hends tag state hk begun (fun _ ↦ hbegun) hnode
    | succeeder =>
      obtain ⟨hanswer, hboard, hends, hnode⟩ := ih env
      have hforgiven : (decorator tag ⟨state, false⟩ .succeeder memory (some child)).evaluate B
          env.board env.world =
            ((child.run B env).status.forgive, (child.run B env).env.world) := by
        rw [evaluate, hanswer]
      have hends := mt Status.forgive_eq_running_iff.mp hends
      exact foretold_settle hforgiven hboard hends tag state hk begun (fun _ ↦ hbegun) hnode
    | «scoped» =>
      -- The scope that the run steps into is empty, and the probe stays outside.
      let s := child.run B (env.enter begun)
      obtain ⟨hanswer, -, hends, hnode⟩ := ih (env.enter begun)
      have hsame := Memory.value?_enter env (hbegun.keptScope env.board.id)
      have houtside : (decorator tag ⟨state, false⟩ .scoped memory (some child)).evaluate B
          env.board env.world = (s.status, (env.leave s.env).world) := by
        rw [evaluate, Memory.probeBoard_of_vacant hm, ← h.evaluate_congr hsame,
          ← env.world_enter begun]
        exact hanswer
      exact foretold_settle houtside rfl hends tag state hk
        (begun.keep env.board.id s.env.board.scope) (fun hne ↦ absurd rfl hne) hnode

/-- A chain at rest stays at rest, whatever happens to it. -/
theorem AtRest.moved (h : AtRest B n) (hm : n.Moved B m) : AtRest B m := by
  induction hm with
  | refl => exact h
  | run _ env ih => exact (ih.run env).node
  | abort _ env ih =>
    rw [abort_of_not_started ih.started_eq]
    exact ih.withLife _

/-- Take a chain of decorators that do not repeat their child, in any order and of any length, down
to a condition on what is visible, a comparison or an empty place, and whatever runs and aborts have
made of it. A probe on a blackboard gives the answer that a run gives on this blackboard, and the
run leaves the blackboard as it is. -/
theorem probe_foretells_run {n m : Node Leaf} (hn : n.Chain Leaf.IsTest) (hu : n.AllUnused)
    (hm : n.Moved Leaf.behavior m) (env : Env World) :
    let s := m.run Leaf.behavior env
    m.evaluate Leaf.behavior env.board env.world = (s.status, s.env.world) ∧
      s.env.board = env.board := by
  have hrest := (AtRest.of_unused (fun _ h ↦ h.tests) hn hu).moved hm
  exact ⟨(hrest.run env).answer, (hrest.run env).board⟩

/-- An inverter above a scope above the condition that an alarm is visible, after a run. -/
theorem probe_foretells_run_alarm :
    let holds : Blackboard → Except AccessError Bool := fun b ↦ .ok (b.contains "alarm")
    let tag := fun number name ↦ Tag.plain (.ofNat number) name
    let n := newDecorator (tag 2 "Invert") .invert (some (newDecorator (tag 1 "BlackboardScope")
      .scoped (some (newLeaf (tag 0 "Condition") (.condition holds)))))
    let calm : Env World := ⟨⟨.initial, ⟨1⟩⟩, (Scope.empty ⟨0⟩).alone⟩
    let alarmed := { calm with board := calm.board.set "alarm" (.bool true) }
    let m := (n.run Leaf.behavior calm).node
    n.Chain Leaf.IsTest ∧ n.AllUnused ∧ n.Moved Leaf.behavior m ∧
      m.evaluate Leaf.behavior alarmed.board alarmed.world =
        ((m.run Leaf.behavior alarmed).status, (m.run Leaf.behavior alarmed).env.world) ∧
      (m.run Leaf.behavior alarmed).env.board = alarmed.board := by
  intro holds tag n calm alarmed m
  have hplain : (∀ limit, DecoratorKind.invert ≠ .loop limit) ∧
      ∀ limit, DecoratorKind.scoped ≠ .loop limit := ⟨fun _ ↦ by simp, fun _ ↦ by simp⟩
  have htest : (Leaf.condition holds).IsTest := fun b b' hv ↦ by
    simp only [holds, Blackboard.contains, hv]
  have hchain : n.Chain Leaf.IsTest :=
    .link _ _ hplain.1 _ (.link _ _ hplain.2 _ (.leaf _ _ htest))
  have hunused : n.AllUnused := by
    refine allUnused_newDecorator fun c hc ↦ ?_
    obtain rfl := Option.some.inj hc
    refine allUnused_newDecorator fun c hc ↦ ?_
    obtain rfl := Option.some.inj hc
    exact allUnused_newLeaf _ _
  have hmoved : n.Moved Leaf.behavior m := Moved.refl.run calm
  exact ⟨hchain, hunused, hmoved, probe_foretells_run hchain hunused hmoved alarmed⟩

end Node

end BehaviorTree
