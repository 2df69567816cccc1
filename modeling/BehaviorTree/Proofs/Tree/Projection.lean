import BehaviorTree.Proofs.Node.Projection
import BehaviorTree.Proofs.Node.Site
import BehaviorTree.Proofs.Tree.Calls

/-!
# Projections of trees

What a host asks of a tree over richer hooks it could ask of the projected tree: the replies are
the same, and the trees stay projections of each other.
-/

namespace BehaviorTree

variable {ο σ τ ω ψ : Type}

/-- The tree with other leaf states. -/
def Tree.map (f : σ → τ) (t : Tree ο σ) : Tree ο τ :=
  ⟨t.root.map f, t.registry, t.owner, t.isInstance, t.lastStatus⟩

/-- The call with another world. -/
def Call.map (g : ω → ψ) (call : Call ω) : Call ψ := ⟨call.request, call.env.map g⟩

/-- What was served, seen through projections of leaf states and worlds. -/
def Served.map (f : σ → τ) (g : ω → ψ) (r : Served ο σ ω) : Served ο τ ψ :=
  ⟨r.reply, r.tree.map f, r.env.map g⟩

/-- The course with other leaf states. -/
def Course.map (f : σ → τ) (c : Course ο σ) : Course ο τ := ⟨c.replies, c.tree.map f⟩

namespace Tree

variable {A : Behavior ο σ ω} {B : Behavior ο τ ψ} {f : σ → τ} {g : ω → ψ}

/-- Leaf states mapped to themselves leave the tree. -/
theorem map_self (t : Tree ο σ) : (t.map fun s ↦ s) = t := by
  rw [map, Node.map_self]

/-- The tree with its site in each leaf. -/
def sited (t : Tree ο σ) : Tree ο (Site × σ) :=
  ⟨t.root.sited [], t.registry, t.owner, t.isInstance, t.lastStatus⟩

/-- The tree with its sites is the tree, apart from them. -/
theorem map_snd_sited (t : Tree ο σ) : t.sited.map Prod.snd = t := by
  rw [sited, map, Node.map_snd_sited]

private theorem tick_map (h : A.Projects B f g) (t : Tree ο σ) (env : Env ω) :
    (t.map f).tick B (env.map g) =
      ⟨(t.tick A env).status, (t.tick A env).tree.map f, (t.tick A env).env.map g⟩ := by
  have hr := Node.run_map h t.root env
  simp only [tick, Tree.map, hr]
  rfl

/-- A request is served the same seen through projections. -/
theorem serve_map (h : A.Projects B f g) (t : Tree ο σ) (request : Request) (env : Env ω) :
    (t.map f).serve B request (env.map g) = (t.serve A request env).map f g := by
  cases request with
  | tick =>
    simp only [serve, tick_map h]
    rfl
  | tickWith clock =>
    have hr := tick_map h t { env with board := clock.publish env.board }
    simp only [serve, tickWith]
    exact congrArg (fun r ↦ (⟨some r.status, r.tree, r.env⟩ : Served ο τ ψ)) hr
  | stop =>
    have hr := Node.abort_map h t.root env
    simp only [serve, stop, Tree.map, hr]
    rfl

/-- A course of a projected tree is the projected course of the tree. -/
theorem serveAll_map (h : A.Projects B f g) (calls : List (Call ω)) (t : Tree ο σ) :
    (t.map f).serveAll B (calls.map (Call.map g)) = (t.serveAll A calls).map f := by
  induction calls generalizing t with
  | nil => rfl
  | cons call rest ih =>
    simp only [List.map_cons, serveAll, Call.map, serve_map h, Served.map, ih]
    rfl

end Tree

end BehaviorTree
