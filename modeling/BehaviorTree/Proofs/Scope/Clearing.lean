import BehaviorTree.Leaf.Basic
import BehaviorTree.Proofs.Lifecycle.Steady
import BehaviorTree.Proofs.Node.Edits
import BehaviorTree.Proofs.Node.Scoped
import BehaviorTree.Proofs.Scope.Probing

/-!
# Scopes between activations

A scope decorator that is not started stores no entries, whatever a host does with it and with its
child, as long as no run or abort comes upon an activation whose child was taken away: then there is
nothing to stop, and the scope is not cleared. So a child that begins with the activation sees no
key that another one has left.
-/

namespace BehaviorTree

variable {ο σ ω : Type}

namespace Node

variable {B : Behavior ο σ ω} {n m : Node σ}

/-- A run of a scope decorator is a run of its child in the scope. If it comes to an end, it leaves
no entries in the scope. -/
theorem run_scoped (B : Behavior ο σ ω) (tag : Tag) (life : Life) (memory : Memory)
    (child : Node σ) (env : Env ω) :
    let s := child.run B (env.enter memory)
    let r := (decorator tag life .scoped memory (some child)).run B env
    r.status = s.status ∧ r.env.world = s.env.world ∧
      ∃ memory' : Memory, (s.status ≠ .running → memory'.Vacant) ∧
        r.node = decorator tag ⟨.ofStatus s.status, s.status.isRunning⟩ .scoped memory'
          (some s.node) := by
  intro s r
  have hstarted : s.node.started = s.status.isRunning := started_run B child (env.enter memory)
  obtain ⟨worked, w, hw, hr⟩ : ∃ (worked : Memory) (w : Step σ ω), w = ⟨s.status,
      decorator tag { life with started := true } .scoped worked (some s.node),
      env.leave s.env⟩ ∧ r = settle B w := by
    obtain ⟨state, started⟩ := life
    simp only [r, run_eq, advance]
    cases started <;> exact ⟨_, _, rfl, rfl⟩
  have hstatus : w.status = s.status := by rw [hw]
  by_cases hs : s.status = .running
  · rw [hr, settle_of_running (hstatus.trans hs), hw, hs]
    exact ⟨rfl, rfl, worked, fun hne ↦ absurd rfl hne, rfl⟩
  · rw [Status.isRunning_eq_false hs] at hstarted ⊢
    rw [hr, settle_of_ne_running (hstatus ▸ hs), hw]
    simp only [stop, hstarted, Bool.false_eq_true, if_false]
    exact ⟨trivial, (env.leave s.env).world_enter worked, _, fun _ ↦ vacant_keep_cleared _ _ _, rfl⟩

/-- Whether a node is a scope decorator that has no entries in the stored scope unless it is
started. -/
def Cleared : Node σ → Prop
  | decorator _ life kind memory _ => kind = .scoped ∧ (life.started = false → memory.Vacant)
  | _ => False

/-- Whether a run or an abort that comes upon an open activation finds a child. -/
def Attended (n : Node σ) : Handling σ ω → Prop
  | .run _ => n.started = true → n.children ≠ []
  | .abort _ => n.started = true → n.children ≠ []
  | .add _ => True
  | .remove _ => True

private theorem Cleared.exists_eq (h : n.Cleared) : ∃ tag life memory child,
    n = decorator tag life .scoped memory child ∧ (life.started = false → memory.Vacant) := by
  cases n with
  | leaf => cases h
  | composite => cases h
  | decorator tag life kind memory child =>
    obtain ⟨rfl, hvacant⟩ := h
    exact ⟨tag, life, memory, child, rfl, hvacant⟩

private theorem Cleared.run {env : Env ω} (h : n.Cleared)
    (ha : n.started = true → n.children ≠ []) : (n.run B env).node.Cleared := by
  obtain ⟨tag, life, memory, child, rfl, hvacant⟩ := h.exists_eq
  cases child with
  | some child =>
    obtain ⟨-, -, memory', hvacant', hnode⟩ := run_scoped B tag life memory child env
    rw [hnode]
    exact ⟨rfl, fun hs ↦ hvacant' fun hr ↦ by simp [hr, Status.isRunning] at hs⟩
  | none =>
    obtain ⟨state, started⟩ := life
    cases started with
    | true => exact absurd rfl (ha rfl)
    | false => exact ⟨rfl, fun _ ↦ hvacant rfl⟩

private theorem Cleared.abort {env : Env ω} (h : n.Cleared)
    (ha : n.started = true → n.children ≠ []) : (n.abort B env).1.Cleared := by
  obtain ⟨tag, ⟨state, started⟩, memory, child, rfl, hvacant⟩ := h.exists_eq
  cases started with
  | false => exact ⟨rfl, fun _ ↦ hvacant rfl⟩
  | true =>
    cases child with
    | none => exact absurd rfl (ha rfl)
    | some child => exact ⟨rfl, fun _ ↦ vacant_keep_cleared _ _ _⟩

private theorem Cleared.handle (h : n.Cleared) {a : Handling σ ω} (ha : n.Attended a) :
    (n.handle B a).Cleared := by
  cases a with
  | run env => exact h.run ha
  | abort env => exact h.abort ha
  | add c =>
    obtain ⟨tag, life, memory, child, rfl, hvacant⟩ := h.exists_eq
    rw [handle_add_decorator]
    exact ⟨rfl, hvacant⟩
  | remove index =>
    obtain ⟨tag, life, memory, child, rfl, hvacant⟩ := h.exists_eq
    rw [handle_remove_decorator]
    exact ⟨rfl, hvacant⟩

/-- Whether nothing that a node stores shows to a child: a run of the node is a run of the child in
an empty scope on the blackboard around it, and a probe of the node a probe of the child. -/
structure ShowsNothing (B : Behavior ο σ ω) (n c : Node σ) : Prop where
  run : ∀ env : Env ω, ∃ inner : Env ω, inner.board.entries = ∅ ∧
    inner.board.enclosing = env.board.scopes ∧ inner.world = env.world ∧
    let s := c.run B inner
    let r := n.run B env
    r.status = s.status ∧ r.env.world = s.env.world ∧ r.node.children = [s.node]
  probe : ∀ b w, n.evaluate B b w = c.evaluate B b w

private theorem Cleared.showsNothing {c : Node σ} (h : n.Cleared) (hs : n.started = false)
    (hc : c ∈ n.children) : ShowsNothing B n c := by
  obtain ⟨tag, life, memory, child, rfl, hvacant⟩ := h.exists_eq
  have hvacant := hvacant hs
  obtain rfl : child = some c := Option.mem_toList.mp hc
  constructor
  · intro env
    obtain ⟨hstatus, hworld, memory', -, hnode⟩ := run_scoped B tag life memory c env
    refine ⟨env.enter memory, ?_, ?_, env.world_enter memory, hstatus, hworld, ?_⟩
    · rcases env.enter_cases memory with ⟨s, hscope, -, he⟩ | ⟨-, he⟩
      · rw [he]
        exact hvacant s hscope
      · rw [he]
        rfl
    · rcases env.enter_cases memory with ⟨s, -, -, he⟩ | ⟨-, he⟩
      · rw [he]
        rfl
      · rw [he]
        rfl
    · rw [hnode]
      rfl
  · intro b w
    rw [evaluate, Memory.probeBoard_of_vacant hvacant]

/-- Take a scope decorator that was not used, over any child or none. Whatever runs, aborts and
edits of its child follow one another, as long as no run or abort comes upon an open activation
without a child, it has no entries in the stored scope whenever it is not started, and then nothing
that it stores shows to its child, be it one that was there before or one that was added since. -/
theorem cleared_unless_started (B : Behavior ο σ ω) (hn : n.IsScoped) (hu : n.Unused)
    (hm : n.Handled B Attended m) :
    m.Cleared ∧ (m.started = false → ∀ c ∈ m.children, ShowsNothing B m c) := by
  have hcleared : n.Cleared := by
    cases n with
    | leaf => cases hn
    | composite => cases hn
    | decorator => exact ⟨hn, fun _ ↦ hu.2.2.2⟩
  have hm := hm.keeps (fun _ _ ha h ↦ h.handle ha) hcleared
  exact ⟨hm, fun hs c hc ↦ hm.showsNothing hs hc⟩

/-- A scope above a leaf that sets a flag and goes on. -/
def flagger : Node Leaf :=
  newDecorator (.plain (.ofNat 0) "BlackboardScope") .scoped (some (newLeaf
    (.plain (.ofNat 1) "Action")
    (.commanded [.set "flag" (.fixed (.bool true))] none .running .failure)))

/-- A leaf that looks for the flag. -/
def flagReader : Node Leaf :=
  newLeaf (.plain (.ofNat 2) "Condition") (.condition fun b ↦ .ok (b.contains "flag"))

/-- The scope is aborted, and then its child is exchanged. -/
theorem cleared_unless_started_exchanged :
    let env : Env World := ⟨⟨.initial, ⟨1⟩⟩, (Scope.empty ⟨0⟩).alone⟩
    let handlings : List (Handling Leaf World) :=
      [.run env, .abort env, .remove 0, .add flagReader]
    let m := handlings.foldl (handle Leaf.behavior) flagger
    flagger.IsScoped ∧ flagger.Unused ∧ flagger.Handled Leaf.behavior Attended m ∧
      m.started = false ∧ m.Cleared ∧ ShowsNothing Leaf.behavior m flagReader := by
  intro env handlings m
  have hscoped : flagger.IsScoped := rfl
  have hunused : flagger.Unused := ⟨rfl, rfl, rfl, Memory.vacant_fresh⟩
  have hhandled : flagger.Handled Leaf.behavior Attended m :=
    .step (.step (.step (.step .refl (.run env) fun hs ↦ by cases hs) (.abort env)
      fun _ ↦ List.cons_ne_nil _ _) (.remove 0) trivial) (.add flagReader) trivial
  obtain ⟨hcleared, hshows⟩ := cleared_unless_started Leaf.behavior hscoped hunused hhandled
  exact ⟨hscoped, hunused, hhandled, rfl, hcleared,
    hshows rfl flagReader (List.mem_singleton_self _)⟩

/-- If the child is taken away before the activation is over, the flag stays, and the next child
sees it. -/
theorem childless_end_keeps_entries :
    let env : Env World := ⟨⟨.initial, ⟨1⟩⟩, (Scope.empty ⟨0⟩).alone⟩
    let handlings : List (Handling Leaf World) := [.run env, .remove 0, .run env]
    let m := handlings.foldl (handle Leaf.behavior) flagger
    flagger.IsScoped ∧ flagger.Unused ∧ m.started = false ∧ ¬ m.Cleared ∧
      env.board.value? "flag" = none ∧
      ((m.handle Leaf.behavior (.add flagReader)).run Leaf.behavior env).status = .success := by
  intro env handlings m
  have hunused : flagger.Unused := ⟨rfl, rfl, rfl, Memory.vacant_fresh⟩
  have hstored : ¬ m.Cleared := by
    rintro ⟨-, hvacant⟩
    have hflag : some (Value.bool true) = (∅ : Entries)["flag"]? :=
      congrArg (·["flag"]?) (hvacant rfl _ rfl)
    simp at hflag
  have hseen : ((m.handle Leaf.behavior (.add flagReader)).run Leaf.behavior env).status =
      .success := by rfl
  exact ⟨rfl, hunused, rfl, hstored, rfl, hseen⟩

end Node

end BehaviorTree
