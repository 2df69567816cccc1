import BehaviorTree.Proofs.Lifecycle.Lawful
import BehaviorTree.Proofs.Node.Preserved
import BehaviorTree.Proofs.Node.Projection
import Mathlib.Data.List.Forall2

/-!
# What happens to a node of a tree

Wherever a node stands in a tree, whatever is done with the tree comes down to runs and aborts of
the node, one after the other (`moved_serveAll`). So what holds of a node in every state that its
own runs and aborts can lead to holds of it in the tree.
-/

namespace BehaviorTree

variable {ο σ ω : Type}

namespace Node

/-- Whether a node can become another by runs and aborts of its own. -/
inductive Moved (B : Behavior ο σ ω) (n : Node σ) : Node σ → Prop where
  | refl : Moved B n n
  | run {m : Node σ} (h : Moved B n m) (env : Env ω) : Moved B n (m.run B env).node
  | abort {m : Node σ} (h : Moved B n m) (env : Env ω) : Moved B n (m.abort B env).1

/-- Whether a node comes to another by runs that it all answers running. -/
inductive Resumed (B : Behavior ο σ ω) (n : Node σ) : Node σ → Prop where
  | refl : Resumed B n n
  | run {m : Node σ} (h : Resumed B n m) (env : Env ω) (hs : (m.run B env).status = .running) :
      Resumed B n (m.run B env).node

/-- The node at the end of a path, which goes from a node to the child at the first index. -/
def at? : Node σ → List Nat → Option (Node σ)
  | n, [] => some n
  | n, index :: path => n.children[index]?.bind (·.at? path)

variable {B : Behavior ο σ ω} {n m k : Node σ} {ns ms ks : List (Node σ)}

private theorem Moved.trans (h : Moved B n m) (h' : Moved B m k) : Moved B n k := by
  induction h' with
  | refl => exact h
  | run _ env ih => exact ih.run env
  | abort _ env ih => exact ih.abort env

/-- What became of a steady node is steady. -/
theorem Moved.allSteady {L : Phase → σ → Prop} (hB : B.Respects L) (h : Moved B n m)
    (hn : n.AllSteady L) : m.AllSteady L := by
  induction h with
  | refl => exact hn
  | run _ env ih => exact run_steady hB env ih
  | abort _ env ih => exact abort_steady hB env ih

/-- Whatever happened to a node that was not started, it is in an activation, or in none: runs that
it all answered running led to it from a state in which it was not started. -/
theorem Moved.resumed (hn : n.started = false) (h : n.Moved B m) :
    ∃ first, n.Moved B first ∧ first.started = false ∧ first.Resumed B m := by
  induction h with
  | refl => exact ⟨n, .refl, hn, .refl⟩
  | @run m h env ih =>
    by_cases hs : (m.run B env).status = .running
    · obtain ⟨first, hfirst, hstarted, hm⟩ := ih
      exact ⟨first, hfirst, hstarted, hm.run env hs⟩
    · refine ⟨_, h.run env, ?_, .refl⟩
      rw [started_run, Status.isRunning_eq_false hs]
  | @abort m h env ih => exact ⟨_, h.abort env, started_abort B m env, .refl⟩

/-- What becomes of a node over richer hooks becomes of its projection. -/
theorem Moved.map {τ ψ : Type} {A : Behavior ο σ ω} {B : Behavior ο τ ψ} {f : σ → τ} {g : ω → ψ}
    (hp : A.Projects B f g) (h : n.Moved A m) : (n.map f).Moved B (m.map f) := by
  induction h with
  | refl => exact .refl
  | @run m _ env ih =>
    have hrun := ih.run (env.map g)
    rwa [run_map hp] at hrun
  | @abort m _ env ih =>
    have habort := ih.abort (env.map g)
    rwa [abort_map hp] at habort

/-- Whether each node of a list can become the one in its place. -/
abbrev MovedAll (B : Behavior ο σ ω) : List (Node σ) → List (Node σ) → Prop :=
  List.Forall₂ (Moved B)

private theorem MovedAll.refl (ns : List (Node σ)) : MovedAll B ns ns :=
  List.forall₂_same.mpr fun _ _ ↦ .refl

private theorem MovedAll.trans (h : MovedAll B ns ms) (h' : MovedAll B ms ks) :
    MovedAll B ns ks := by
  induction h generalizing ks with
  | nil => exact h'
  | cons hc _ ih =>
    cases h' with
    | cons hc' h' => exact .cons (hc.trans hc') (ih h')

/-- A node that is aborted on a condition has moved. -/
theorem Moved.abort_if (h : Moved B n m) (p : Prop) [Decidable p] (env : Env ω) :
    Moved B n (if p then m.abort B env else (m, env)).1 := by
  split
  · exact h.abort env
  · exact h

/-! ### Children -/

private theorem moved_scan (pass : Status) (ns : List (Node σ)) (env : Env ω) :
    MovedAll B ns (scan (Node.run B) pass ns env).children := by
  induction ns generalizing env with
  | nil => exact .nil
  | cons c rest ih =>
    by_cases hs : (c.run B env).status = pass
    · rw [scan_cons_of_pass hs]
      exact .cons (Moved.refl.run env) (ih _)
    · rw [scan_cons_of_ne hs]
      exact .cons (Moved.refl.run env) (MovedAll.refl rest)

private theorem moved_scanFrom (pass : Status) (index : Nat) (ns : List (Node σ)) (env : Env ω) :
    MovedAll B ns (scanFrom (Node.run B) pass index ns env).children := by
  have h : MovedAll B (ns.take index ++ ns.drop index)
      (scanFrom (Node.run B) pass index ns env).children :=
    List.rel_append (MovedAll.refl (ns.take index)) (moved_scan pass (ns.drop index) env)
  rwa [List.take_append_drop] at h

/-- A sweep moves the children. -/
theorem moved_sweep (ns : List (Node σ)) (env : Env ω) :
    MovedAll B ns (sweep (Node.run B) ns env).children := by
  induction ns generalizing env with
  | nil => exact .nil
  | cons c rest ih => exact .cons (Moved.refl.run env) (ih _)

/-- Aborting the child at an index moves the children. -/
theorem moved_abortAt (ns : List (Node σ)) (index : Nat) (env : Env ω) :
    MovedAll B ns (abortAt B ns index env).1 := by
  induction ns generalizing index with
  | nil => exact .nil
  | cons c rest ih =>
    cases index with
    | zero => exact .cons (Moved.refl.abort env) (MovedAll.refl rest)
    | succ index => exact .cons .refl (ih index)

private theorem moved_stopRunningAt (ns : List (Node σ)) (index : Nat) (env : Env ω) :
    MovedAll B ns (stopRunningAt B ns index env).1 := by
  induction ns generalizing index with
  | nil => exact .nil
  | cons c rest ih =>
    cases index with
    | zero => exact .cons (Moved.refl.abort_if _ env) (MovedAll.refl rest)
    | succ index => exact .cons .refl (ih index)

private theorem moved_stopRunning (ns : List (Node σ)) (env : Env ω) :
    MovedAll B ns (stopRunning B ns env).1 := by
  induction ns generalizing env with
  | nil => exact .nil
  | cons c rest ih => exact .cons (Moved.refl.abort_if _ env) (ih _)

/-- A tick of work moves the children. -/
theorem moved_work (n : Node σ) (env : Env ω) :
    MovedAll B n.children (n.work B (Node.run B) env).node.children := by
  cases n with
  | leaf => exact .nil
  | composite tag life kind resume children =>
    cases kind with
    | sequencer =>
      simp only [work, workSequencer_eq, Node.children]
      split
      · exact .refl children
      · exact moved_scanFrom _ _ children _
    | selector =>
      simp only [work, workSelector_eq, Node.children]
      split
      · exact (moved_abortAt children _ _).trans (moved_scanFrom _ _ _ _)
      · exact moved_scanFrom _ _ children _
    | parallel mode => exact moved_sweep children env
  | decorator tag life kind memory child =>
    cases child with
    | none => exact .nil
    | some child =>
      have hrun (env : Env ω) : Moved B child (child.run B env).node := Moved.refl.run env
      refine .cons ?_ .nil
      cases kind with
      | invert => exact hrun env
      | succeeder => exact hrun env
      | «scoped» => exact hrun _
      | loop limit =>
        by_cases hm : memory.reached limit = true
        · rw [workDecorator_loop_of_reached hm]
          exact .refl
        · rw [Bool.not_eq_true] at hm
          by_cases hs : (child.run B env).status = .running
          · rw [workDecorator_loop_of_running hm hs]
            exact hrun env
          · rw [workDecorator_loop_of_ne_running hm hs]
            exact (hrun env).abort _

private theorem moved_stop (n : Node σ) (env : Env ω) :
    MovedAll B n.children (n.stop B env).1.children := by
  cases n with
  | leaf => exact .nil
  | composite tag life kind resume children =>
    cases kind with
    | sequencer => exact moved_stopRunningAt children resume env
    | selector => exact moved_stopRunningAt children resume env
    | parallel mode => exact moved_stopRunning children env
  | decorator tag life kind memory child =>
    cases child with
    | none => exact .nil
    | some child =>
      have hstop (env : Env ω) :
          MovedAll B [child] [(if child.started then child.abort B env else (child, env)).1] :=
        .cons (Moved.refl.abort_if _ env) .nil
      cases kind with
      | «scoped» => exact hstop _
      | invert => exact hstop env
      | succeeder => exact hstop env
      | loop limit => exact hstop env

/-- A run of a node runs and aborts its children. -/
theorem moved_children_run (n : Node σ) (env : Env ω) :
    MovedAll B n.children (n.run B env).node.children := by
  have hwork := moved_work (B := B) (n.begin B env).1 (n.begin B env).2
  rw [children_begin] at hwork
  rw [run_eq, advance, settle]
  split
  · rw [children_withLife]
    exact hwork.trans (moved_stop _ _)
  · rw [children_withLife]
    exact hwork

/-- So does an abort. -/
theorem moved_children_abort (n : Node σ) (env : Env ω) :
    MovedAll B n.children (n.abort B env).1.children := by
  unfold abort abandon
  split
  · rw [children_withLife]
    exact moved_stop n env
  · rw [children_withLife]
    exact .refl _

/-! ### Nodes below -/

/-- When a node moves, so do its children. -/
theorem Moved.children (h : Moved B n m) : MovedAll B n.children m.children := by
  induction h with
  | refl => exact .refl _
  | run _ env ih => exact ih.trans (moved_children_run _ env)
  | abort _ env ih => exact ih.trans (moved_children_abort _ env)

/-- What became of a node is what its author made, up to the states of leaves. -/
theorem Moved.frame_eq (h : Moved B n m) : m.frame (fun _ ↦ ()) = n.frame fun _ ↦ () := by
  induction h with
  | refl => rfl
  | run _ env ih => exact ((evolves_run _ env).frame B.keeps_unit).trans ih
  | abort _ env ih => exact ((evolves_abort _ env).frame B.keeps_unit).trans ih

/-- A composite stays one over as many children. -/
theorem Moved.exists_composite {tag : Tag} {life : Life} {kind : CompositeKind} {resume : Nat}
    (h : Moved B (composite tag life kind resume ns) m) :
    ∃ life' resume' ms, m = composite tag life' kind resume' ms ∧ ms.length = ns.length := by
  have hframe := h.frame_eq
  rw [frame, frame, recast_composite] at hframe
  obtain ⟨life', resume', ms, rfl, hchildren⟩ := recast_eq_composite hframe
  have hlength := congrArg List.length hchildren
  rw [List.length_map, List.length_map] at hlength
  exact ⟨life', resume', ms, rfl, hlength⟩

/-- A decorator stays one over a child. -/
theorem Moved.exists_decorator {tag : Tag} {life : Life} {kind : DecoratorKind} {memory : Memory}
    {child : Node σ} (h : Moved B (decorator tag life kind memory (some child)) m) :
    ∃ life' memory' child', m = decorator tag life' kind memory' (some child') := by
  have hframe := h.frame_eq
  rw [frame, frame, recast_decorator] at hframe
  obtain ⟨life', memory', child', rfl, hchild⟩ := recast_eq_decorator hframe
  obtain ⟨c, rfl, -⟩ := Option.map_eq_some_iff.mp hchild
  exact ⟨life', memory', c, rfl⟩

/-- In a list each node is found in its place. -/
theorem MovedAll.getElem? (h : MovedAll B ns ms) {index : Nat} {c : Node σ}
    (hc : ns[index]? = some c) : ∃ d, ms[index]? = some d ∧ Moved B c d := by
  induction h generalizing index with
  | nil => cases hc
  | cons hd _ ih =>
    cases index with
    | zero =>
      obtain rfl := Option.some.inj hc
      exact ⟨_, rfl, hd⟩
    | succ index => exact ih hc

/-- What happens to a node comes down to what happens to each node below it. -/
theorem Moved.at? (h : Moved B n m) {path : List Nat} {c : Node σ} (hc : n.at? path = some c) :
    ∃ d, m.at? path = some d ∧ Moved B c d := by
  induction path generalizing n m with
  | nil =>
    obtain rfl := Option.some.inj hc
    exact ⟨m, rfl, h⟩
  | cons index path ih =>
    obtain ⟨child, hchild, hc⟩ := Option.bind_eq_some_iff.mp hc
    obtain ⟨child', hchild', hmoved⟩ := h.children.getElem? hchild
    obtain ⟨d, hd, hcd⟩ := ih hmoved hc
    refine ⟨d, ?_, hcd⟩
    rw [Node.at?, hchild', Option.bind_some, hd]

/-- A node at a path is one of the nodes of the subtree. -/
theorem mem_preorder_of_at? {path : List Nat} (h : n.at? path = some m) : m ∈ n.preorder := by
  induction path generalizing n with
  | nil =>
    obtain rfl := Option.some.inj h
    rw [preorder_eq]
    exact List.mem_cons_self
  | cons index path ih =>
    obtain ⟨child, hchild, h⟩ := Option.bind_eq_some_iff.mp h
    exact mem_preorder_of_mem_children (List.mem_of_getElem? hchild) (ih h)

end Node

/-- What is done with a tree comes down to runs and aborts of each node. -/
theorem Tree.moved_serveAll (B : Behavior ο σ ω) {t : Tree ο σ} {path : List Nat} {n : Node σ}
    (hn : t.root.at? path = some n) (calls : List (Call ω)) :
    ∃ m, (t.serveAll B calls).tree.root.at? path = some m ∧ n.Moved B m := by
  have hroot : t.root.Moved B (t.serveAll B calls).tree.root := by
    clear hn
    induction calls generalizing t with
    | nil => exact .refl
    | cons call rest ih =>
      refine Node.Moved.trans ?_ ih
      rcases t.serve_cases B call.request call.env with ⟨board, hr⟩ | hr
      · rw [hr]
        exact Node.Moved.refl.run _
      · rw [hr]
        exact Node.Moved.refl.abort _
  exact hroot.at? hn

end BehaviorTree
