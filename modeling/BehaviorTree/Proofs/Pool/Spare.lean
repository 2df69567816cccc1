import BehaviorTree.Guard.Prototype
import BehaviorTree.Proofs.Tree.Binding

/-!
# Free nodes

Nodes come to a pool from trees in any state, from copies that failed, and as new shells. However
they came, each lies alone in the stack of its identifier and carries no trace of an activation, so
that a pool is never corrupted (`free_nodes_fresh`).
-/

namespace BehaviorTree

variable {ο σ ω : Type}

namespace Node

/-- Whether a node stands alone and carries no trace of an activation. -/
structure Spare (n : Node σ) : Prop where
  childless : n.children = []
  unused : n.Unused

private theorem spare_shell (model : Node σ) : model.shell.Spare := by
  cases model with
  | leaf => exact ⟨rfl, rfl⟩
  | composite => exact ⟨rfl, rfl, rfl⟩
  | decorator => exact ⟨rfl, rfl, rfl, rfl, Memory.vacant_fresh⟩

/-- Scrubbing clears whatever an activation has left, of every kind of node. -/
theorem spare_scrubbed (n : Node σ) : n.scrubbed.Spare := by
  cases n with
  | leaf => exact ⟨rfl, rfl⟩
  | composite => exact ⟨rfl, rfl, rfl⟩
  | decorator _ _ _ memory => exact ⟨rfl, rfl, rfl, rfl, memory.vacant_scrubbed⟩

end Node

namespace Pool

/-- Whether each free node lies in the stack of its identifier and is spare. -/
structure Clean (p : Pool σ) : Prop where
  keyed : p.Keyed
  spare : ∀ id, ∀ n ∈ p.stack id, n.Spare

variable {p : Pool σ}

private theorem clean_empty (maxFree : Nat) : (empty maxFree : Pool σ).Clean := by
  refine ⟨keyed_empty maxFree, fun id n hn ↦ ?_⟩
  simp [empty, stack] at hn

private theorem Clean.withStack (h : p.Clean) {id : NodeId} {ns : List (Node σ)}
    (hn : ∀ n ∈ ns, n.id = id ∧ n.Spare) : (p.withStack id ns).Clean := by
  refine ⟨h.keyed.withStack fun n hm ↦ (hn n hm).1, fun other n hm ↦ ?_⟩
  rw [stack_withStack] at hm
  split at hm
  · exact (hn n hm).2
  · exact h.spare other n hm

private theorem Clean.of_mem (h : p.Clean) {id : NodeId} {n : Node σ} (hn : n ∈ p.stack id) :
    n.id = id ∧ n.Spare :=
  ⟨h.keyed id n hn, h.spare id n hn⟩

private theorem Clean.acquire (h : p.Clean) (model : Node σ) : (p.acquire model).2.Clean := by
  unfold Pool.acquire
  cases hs : p.stack model.id with
  | nil => exact ⟨h.keyed, h.spare⟩
  | cons n rest =>
    have hrest : (p.withStack model.id rest).Clean := h.withStack fun m hm ↦
      h.of_mem (by rw [hs]; exact List.mem_cons_of_mem _ hm)
    have hid : n.id = model.id := h.keyed model.id n (by rw [hs]; exact List.mem_cons_self)
    simp only [hid, if_true]
    exact ⟨hrest.keyed, hrest.spare⟩

private theorem Clean.put (h : p.Clean) (n : Node σ) : (p.put n).Clean := by
  unfold Pool.put
  split
  · have hstack : (p.withStack n.id (n.scrubbed :: p.stack n.id)).Clean := by
      refine h.withStack fun m hm ↦ ?_
      rcases List.mem_cons.mp hm with rfl | hm
      · exact ⟨congrArg Tag.id n.tag_scrubbed, n.spare_scrubbed⟩
      · exact h.of_mem hm
    exact ⟨hstack.keyed, hstack.spare⟩
  · exact ⟨h.keyed, h.spare⟩

/-- The nodes of a subtree in any state are taken back one by one. -/
theorem Clean.release (h : p.Clean) (n : Node σ) : (p.release n).Clean := by
  unfold Pool.release
  generalize returnOrder n = ns
  induction ns generalizing p with
  | nil => exact h
  | cons n rest ih => exact ih (h.put n)

private theorem Clean.fill (h : p.Clean) (copies : Nat) (model : Node σ) :
    (p.fill copies model).Clean := by
  refine h.withStack fun m hm ↦ ?_
  rcases List.mem_append.mp hm with hm | hm
  · rw [List.eq_of_mem_replicate hm]
    exact ⟨congrArg Tag.id model.tag_shell, model.spare_shell⟩
  · exact h.of_mem hm

private theorem Clean.prewarm (h : p.Clean) (root : Node σ) (copies : Nat) :
    (p.prewarm root copies).Clean := by
  unfold Pool.prewarm
  generalize (Walk.start root).toList = ns
  induction ns generalizing p with
  | nil => exact h
  | cons n rest ih => exact ih (h.fill copies n)

private theorem Clean.clear (p : Pool σ) : p.clear.Clean := by
  refine ⟨.clear p, fun id n hn ↦ ?_⟩
  simp [Pool.clear, stack] at hn

/-- Making an instance hands out nodes, and takes them back if it fails. -/
theorem Clean.instantiate {B : Behavior ο σ ω} {host : Host σ ω} (h : host.pool.Clean)
    (t : Tree ο σ) (owner : ο) : (t.instantiate B owner host).2.pool.Clean := by
  unfold Tree.instantiate
  split
  · exact h
  · exact Node.copy_keeps (fun _ model h ↦ h.acquire model) (fun _ n h ↦ h.release n) h t.root
      host.world

/-- Whether a pool can come about by the uses that there are of a pool. What is released need be no
tree that was instantiated: it may be running, edited, or have an identifier twice. -/
inductive Reachable (B : Behavior ο σ ω) : Pool σ → Prop where
  | empty (maxFree : Nat) : Reachable B (empty maxFree)
  | acquire {p : Pool σ} (h : Reachable B p) (model : Node σ) : Reachable B (p.acquire model).2
  | release {p : Pool σ} (h : Reachable B p) (n : Node σ) : Reachable B (p.release n)
  | prewarm {p : Pool σ} (h : Reachable B p) (t : Tree ο σ) (copies : Nat) :
      Reachable B (p.prewarm t.root copies)
  | clear {p : Pool σ} (h : Reachable B p) : Reachable B p.clear
  | instantiate {p : Pool σ} (h : Reachable B p) (t : Tree ο σ) (owner : ο) (out : Outside ω) :
      Reachable B (t.instantiate B owner ⟨out, p⟩).2.pool
  | releaseTree {p : Pool σ} (h : Reachable B p) (t : Tree ο σ) : Reachable B (t.release p)

variable {B : Behavior ο σ ω}

private theorem Reachable.clean (h : Reachable B p) : p.Clean := by
  induction h with
  | empty maxFree => exact clean_empty maxFree
  | acquire _ model ih => exact ih.acquire model
  | release _ n ih => exact ih.release n
  | prewarm _ t copies ih => exact ih.prewarm t.root copies
  | @clear p _ _ => exact .clear p
  | @instantiate p _ t owner out ih =>
    have hpool : (⟨out, p⟩ : Host σ ω).pool.Clean := ih
    exact hpool.instantiate t owner
  | releaseTree _ t ih => exact ih.release t.root

/-- In a pool that came about in any way, each node in the stack of an identifier has that
identifier and no children, and is unused: no state, no activation, no index to resume at, no count,
no scope around the stored one, and no entries in that. So a shell can always be had, and no tree
fails to be instantiated because of the pool. -/
theorem free_nodes_fresh (B : Behavior ο σ ω) (h : Reachable B p) :
    (∀ id, ∀ n ∈ p.stack id, n.id = id ∧ n.children = [] ∧ n.Unused) ∧
      (∀ model, ∃ n, (p.acquire model).1 = .ok n) ∧
      ∀ (t : Tree ο σ) (owner : ο) (out : Outside ω) (expected found : NodeId),
        (t.instantiate B owner ⟨out, p⟩).1 ≠ .error (.poolCorrupted expected found) := by
  have hclean := h.clean
  refine ⟨fun id n hn ↦ ?_, fun model ↦ ?_, fun t owner out expected found heq ↦ ?_⟩
  · obtain ⟨hid, hspare⟩ := hclean.of_mem hn
    exact ⟨hid, hspare.childless, hspare.unused⟩
  · exact ((p.supplied_acquire model).keyed hclean.keyed).1
  · have hkeyed : (⟨out, p⟩ : Host σ ω).pool.Keyed := hclean.keyed
    have hattempt := t.attempt_instantiate B owner hkeyed
    generalize t.instantiate B owner ⟨out, p⟩ = r at hattempt heq
    cases hattempt with
    | copied => cases heq
    | refused => cases heq
    | made => cases heq

/-- Two waits with one identifier come back while they run, and a guard cannot be bound to its
owner. -/
theorem free_nodes_fresh_twins :
    let wait := Node.newLeaf (.plain (.ofNat 1) "wait") (Leaf.wait (.ofSeconds 1))
    let waits := Node.newComposite (.plain (.ofNat 0) "waits") (.parallel .never) [wait, wait]
    let env : Env World := ⟨⟨.initial, ⟨1⟩⟩, (Scope.empty ⟨0⟩).alone⟩
    let running := (waits.run Leaf.behavior env).node
    let guard : Tree Owner Leaf := ⟨Guard.root 1 0.5, (Guard.root 1 0.5).ids, none, false, none⟩
    let p : Pool Leaf := (guard.instantiate Leaf.behavior ⟨0, .unit⟩
      ⟨⟨.initial, ⟨1⟩⟩, (empty 2).release running⟩).2.pool
    running.started = true ∧ Reachable Leaf.behavior p ∧
      (∀ id, ∀ n ∈ p.stack id, n.id = id ∧ n.children = [] ∧ n.Unused) ∧
      ∀ model, ∃ n, (p.acquire model).1 = .ok n := by
  intro wait waits env running guard p
  have hback : Reachable Leaf.behavior ((empty 2).release running) :=
    (Reachable.empty 2).release running
  have hp := hback.instantiate guard ⟨0, .unit⟩ ⟨.initial, ⟨1⟩⟩
  obtain ⟨hfree, hshell, -⟩ := free_nodes_fresh Leaf.behavior hp
  exact ⟨Node.started_run _ _ _, hp, hfree, hshell⟩

end Pool

end BehaviorTree
