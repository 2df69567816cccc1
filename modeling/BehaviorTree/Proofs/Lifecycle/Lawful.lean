import BehaviorTree.Guard.Prototype
import BehaviorTree.Proofs.Lifecycle.Run
import BehaviorTree.Proofs.Tree.Calls

/-!
# The lifecycle of a ticking tree

Whatever a host does with a tree of unused nodes, after every call each node is lawful: what it
says about its own activation is true of the activations below it. `lawful_serveAll` is the law
over whole courses of calls.
-/

namespace BehaviorTree

variable {ο σ ω : Type}

namespace Node

/-- The index at which a composite resumes. -/
def resume? : Node σ → Option Nat
  | composite _ _ _ resume _ => some resume
  | _ => none

/-- What holds of each node between two calls of the host. -/
structure Lawful (n : Node σ) : Prop where
  /-- A node is started exactly when its state is running. -/
  started_iff : n.started = true ↔ n.state = .running
  /-- Below a node that is not started nothing is started, and it resumes at the beginning. -/
  idle : n.started = false →
    (∀ c ∈ n.children, ∀ m ∈ c.preorder, m.started = false) ∧ ∀ index ∈ n.resume?, index = 0
  /-- A started sequencer or selector resumes at a started child, the only one. -/
  one : ∀ {tag life kind resume children}, n = composite tag life kind resume children →
    kind = .sequencer ∨ kind = .selector → n.started = true →
    ∃ h : resume < children.length, children[resume].started = true ∧
      ∀ (i : Nat) (hi : i < children.length), i ≠ resume → children[i].started = false
  /-- A started decorator other than a loop has a started child. -/
  child : ∀ {tag life kind memory child}, n = decorator tag life kind memory child →
    kind = .invert ∨ kind = .succeeder ∨ kind = .scoped → n.started = true →
    ∃ c, child = some c ∧ c.started = true

variable {L : Phase → σ → Prop}

/-- A subtree that rests has nothing started in it. -/
theorem not_started_of_resting {n : Node σ} (h : AllSteady L n) (hs : n.started = false) :
    ∀ m ∈ n.preorder, m.started = false := by
  induction n using child_induction with
  | step n ih =>
    intro m hm
    rw [preorder_eq] at hm
    rcases List.mem_cons.mp hm with rfl | hm
    · exact hs
    · obtain ⟨c, hc, hm⟩ := mem_preorders.mp hm
      refine ih c hc (h.below hc) ?_ m hm
      have hr := h.here.resting hs
      cases n with
      | leaf => cases hc
      | composite => exact hr.2 c hc
      | decorator => exact hr.2 c (Option.mem_toList.mp hc)

/-- The child at which a suspended composite resumes is the one that is started. -/
theorem started_only_at {resume : Nat} {children : List (Node σ)} (ho : OnlyAt resume children)
    (hw : ∃ c, children[resume]? = some c ∧ c.started = true) :
    ∃ h : resume < children.length, children[resume].started = true ∧
      ∀ (i : Nat) (hi : i < children.length), i ≠ resume → children[i].started = false := by
  obtain ⟨c, hc, hs⟩ := hw
  obtain ⟨h, rfl⟩ := List.getElem?_eq_some_iff.mp hc
  exact ⟨h, hs, fun i hi hne ↦ ho i _ (List.getElem?_eq_getElem hi) hne⟩

/-- Each node of a steady subtree is lawful. -/
theorem lawful_of_allSteady {n : Node σ} (h : AllSteady L n) : n.Lawful where
  started_iff := h.here.started_iff
  idle hs := by
    refine ⟨fun c hc m hm ↦ ?_, ?_⟩
    · exact not_started_of_resting h hs m (mem_preorder_of_mem_children hc hm)
    · have hr := h.here.resting hs
      cases n with
      | leaf => intro index hi; cases hi
      | composite => intro index hi; cases hi; exact hr.1
      | decorator => intro index hi; cases hi
  one := by
    rintro tag life kind resume children rfl hk hs
    obtain ⟨ho, hw⟩ := h.here.active hs
    rcases hk with rfl | rfl
    · exact started_only_at ho hw
    · exact started_only_at ho hw
  child := by
    rintro tag life kind memory child rfl hk hs
    have hw := (h.here.active hs).2
    rcases hk with rfl | rfl | rfl
    · exact hw
    · exact hw
    · exact hw

end Node

/-- The guard's tree is built of unused nodes. -/
theorem Guard.allUnused_root (first : Nat) (linger : Float32) :
    (Guard.root first linger).AllUnused := by
  refine Node.allUnused_newComposite fun c hc ↦ ?_
  simp only [List.mem_cons, List.not_mem_nil, or_false] at hc
  rcases hc with rfl | rfl
  · exact Node.allUnused_newLeaf _ _
  · refine Node.allUnused_newDecorator fun c hc ↦ ?_
    cases hc
    refine Node.allUnused_newComposite fun c hc ↦ ?_
    simp only [List.mem_cons, List.not_mem_nil, or_false] at hc
    rcases hc with rfl | rfl
    · exact Node.allUnused_newLeaf _ _
    · exact Node.allUnused_newLeaf _ _

namespace Tree

variable {B : Behavior ο σ ω} {L : Phase → σ → Prop}

/-- A request keeps the tree steady; the root is started exactly if the reply says running. -/
theorem serve_steady (hB : B.Respects L) {t : Tree ο σ} (h : t.root.AllSteady L)
    (request : Request) (env : Env ω) :
    let r := t.serve B request env
    r.tree.root.AllSteady L ∧ (r.tree.root.started = true ↔ r.reply = some .running) := by
  rcases t.serve_cases B request env with ⟨board, hr⟩ | hr
  · rw [hr]
    refine ⟨Node.run_steady hB _ h, ?_⟩
    rw [Node.started_run, Status.isRunning_iff, Option.some_inj]
  · rw [hr]
    exact ⟨Node.abort_steady hB _ h, by simp⟩

/-- The same over a course of calls; `last` is the reply before the first of them. -/
theorem serveAll_steady (hB : B.Respects L) (calls : List (Call ω)) {t : Tree ο σ}
    (h : t.root.AllSteady L) {last : Option Status}
    (hlast : t.root.started = true ↔ last = some .running) :
    let r := t.serveAll B calls
    r.tree.root.AllSteady L ∧
      (r.tree.root.started = true ↔ r.replies.getLastD last = some .running) := by
  induction calls generalizing t last with
  | nil => exact ⟨h, hlast⟩
  | cons call rest ih =>
    obtain ⟨hs, hreply⟩ := serve_steady hB h call.request call.env
    have hr := ih hs hreply
    refine ⟨hr.1, ?_⟩
    show _ ↔ (_ :: _ : List (Option Status)).getLastD last = _
    rw [List.getLastD_cons]
    exact hr.2

/-- A course of calls keeps a tree of unused nodes with idle leaves steady, and leaves the root
started exactly when the last call was a tick that answered running. -/
theorem serveAll_steady_of_allUnused (hB : B.Respects L) (calls : List (Call ω)) {t : Tree ο σ}
    (h : t.root.AllUnused) (hl : t.root.Everywhere fun m ↦ ∀ s ∈ m.leaf?, L .idle s) :
    let r := t.serveAll B calls
    r.tree.root.AllSteady L ∧
      (r.tree.root.started = true ↔ r.replies.getLast? = some (some .running)) := by
  have hroot : t.root.started = true ↔ (none : Option Status) = some .running := by
    simp [Node.started, h.here.life_eq, Life.fresh]
  obtain ⟨hs, hlast⟩ := serveAll_steady hB calls (Node.allSteady_of_allUnused h hl) hroot
  refine ⟨hs, ?_⟩
  rw [hlast, List.getLastD_eq_getLast?]
  cases (t.serveAll B calls).replies.getLast? with
  | none => simp
  | some reply => simp

/-- After any calls each node of a tree that was built of unused nodes is lawful, and the root is
started exactly when the last call was a tick that answered running. -/
theorem lawful_serveAll (B : Behavior ο σ ω) (t : Tree ο σ) (h : t.root.AllUnused)
    (calls : List (Call ω)) :
    let r := t.serveAll B calls
    (∀ n ∈ r.tree.root.preorder, n.Lawful) ∧
      (r.tree.root.started = true ↔ r.replies.getLast? = some (some .running)) := by
  obtain ⟨hs, hlast⟩ := serveAll_steady_of_allUnused B.respects_true calls h fun _ _ _ _ ↦ trivial
  exact ⟨fun n hn ↦ Node.lawful_of_allSteady (hs.at_mem hn), hlast⟩

/-- The guard's tree, built and ticked once on an empty blackboard, then stopped on another. -/
theorem lawful_guard_course :
    let t : Tree Owner Leaf := ⟨Guard.root 1 0.5, [], none, false, none⟩
    let calls : List (Call World) :=
      [⟨.tickWith ⟨0, 0.1⟩, ⟨⟨.initial, ⟨2⟩⟩, (Scope.empty ⟨0⟩).alone⟩⟩,
        ⟨.stop, ⟨⟨.initial, ⟨9⟩⟩, (Scope.empty ⟨1⟩).alone⟩⟩]
    let r := t.serveAll Leaf.behavior calls
    t.root.AllUnused ∧ (∀ n ∈ r.tree.root.preorder, n.Lawful) ∧
      (r.tree.root.started = true ↔ r.replies.getLast? = some (some .running)) := by
  intro t calls r
  exact ⟨Guard.allUnused_root 1 0.5,
    lawful_serveAll Leaf.behavior t (Guard.allUnused_root 1 0.5) calls⟩

end Tree

end BehaviorTree
