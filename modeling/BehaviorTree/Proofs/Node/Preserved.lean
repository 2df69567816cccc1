import BehaviorTree.Proofs.Node.Evolution
import BehaviorTree.Proofs.Node.Recast
import BehaviorTree.Proofs.Scope.Identity

/-!
# What runs and aborts preserve

The small steps of the engine keep the blackboard apart from its local entries, give out identities
of scopes one after the other, store none of them twice, and leave alone what the author made of a
subtree, together with whatever the hooks of its leaves leave alone.
-/

namespace BehaviorTree

variable {ο σ κ ω : Type}

/-- Hooks that never change a part of the leaf's state. -/
structure Behavior.Keeps (B : Behavior ο σ ω) (part : σ → κ) : Prop where
  start : ∀ s b w, part (B.start s b w).state = part s
  run : ∀ s b w, part (B.run s b w).2.state = part s
  stop : ∀ s b w, part (B.stop s b w).state = part s

/-- Hooks keep at least nothing of a leaf. -/
theorem Behavior.keeps_unit (B : Behavior ο σ ω) : B.Keeps fun _ ↦ () where
  start _ _ _ := rfl
  run _ _ _ := rfl
  stop _ _ _ := rfl

namespace Node.Evolves

variable {B : Behavior ο σ ω} {n n' : Node σ} {env env' : Env ω}

/-- The local scope keeps its identity, and the scopes around it stay as they are. -/
theorem board (h : n.Evolves B env n' env') :
    env'.board.id = env.board.id ∧ env'.board.enclosing = env.board.enclosing := by
  induction h with
  | trans h h' ih ih' => exact ⟨ih'.1.trans ih.1, ih'.2.trans ih.2⟩
  | child _ _ _ _ _ _ h ih => exact ih
  | only _ _ _ _ h ih => exact ih
  | _ => exact ⟨rfl, rfl⟩

/-- No identity is given out twice. -/
theorem fresh_le (h : n.Evolves B env n' env') : env.fresh.number ≤ env'.fresh.number := by
  induction h with
  | trans h h' ih ih' => exact Nat.le_trans ih ih'
  | child _ _ _ _ _ _ h ih => exact ih
  | only _ _ _ _ h ih => exact ih
  | inScope _ _ _ memory h ih => exact Nat.le_trans (Env.fresh_le_enter _ memory) ih
  | _ => exact Nat.le_refl _

/-- The author's tree stays as it is, and so does what the hooks keep of each leaf. -/
theorem frame {part : σ → κ} (hB : B.Keeps part) (h : n.Evolves B env n' env') :
    n'.frame part = n.frame part := by
  induction h with
  | refl => rfl
  | probe => rfl
  | trans h h' ih ih' => exact ih'.trans ih
  | life n => cases n <;> simp [withLife, Node.frame]
  | resume => simp [Node.frame]
  | count => simp [Node.frame]
  | cleared => simp [Node.frame]
  | start => simp [Node.frame, hB.start]
  | run => simp [Node.frame, hB.run]
  | stop => simp [Node.frame, hB.stop]
  | child _ _ _ _ _ _ h ih =>
    simp only [Node.frame, recast_composite, List.map_append, List.map_cons] at ih ⊢
    rw [ih]
  | only _ _ _ _ h ih =>
    simp only [Node.frame, recast_decorator, Option.map_some] at ih ⊢
    rw [ih]
  | inScope _ _ _ _ h ih =>
    simp only [Node.frame, recast_decorator, Option.map_some] at ih ⊢
    rw [ih]

/-- Each node keeps its identifier. -/
theorem ids (h : n.Evolves B env n' env') : n'.ids = n.ids := by
  have hframe := congrArg Node.ids (h.frame B.keeps_unit)
  rw [Node.frame, Node.frame, ids_recast, ids_recast] at hframe
  exact hframe

/-- If no identity is stored twice, in the subtree or elsewhere, none is afterwards. -/
theorem distinct (h : n.Evolves B env n' env') (stores : ScopeId → Nat)
    (hd : Distinct env.fresh fun i ↦ n.stores i + stores i) :
    Distinct env'.fresh fun i ↦ n'.stores i + stores i := by
  induction h generalizing stores with
  | refl => exact hd
  | probe => exact hd
  | trans h h' ih ih' => exact ih' stores (ih stores hd)
  | life => simpa using hd
  | resume => simpa using hd
  | count => simpa [stores_decorator, Memory.stores] using hd
  | cleared => simpa [stores_decorator] using hd
  | start => exact hd
  | run => exact hd
  | stop => exact hd
  | child tag life kind resume before after h ih =>
    have hc := ih (fun i ↦ storesAll before i + storesAll after i + stores i) (hd.of_le fun i ↦ by
      simp only [stores_composite, storesAll_append, storesAll_cons]
      omega)
    refine hc.of_le fun i ↦ ?_
    simp only [stores_composite, storesAll_append, storesAll_cons]
    omega
  | only tag life kind memory h ih =>
    have hc := ih (fun i ↦ memory.stores i + stores i) (hd.of_le fun i ↦ by
      simp only [stores_decorator_some]
      omega)
    refine hc.of_le fun i ↦ ?_
    simp only [stores_decorator_some]
    omega
  | @inScope tag life kind memory c c' env inner h ih =>
    have hin : Distinct (env.enter memory).fresh fun i ↦
        (if (env.enter memory).board.id = i then 1 else 0) + (c.stores i + stores i) :=
      Distinct.enter (hd.of_le fun i ↦ by
        simp only [stores_decorator_some]
        omega)
    have hc := ih (fun i ↦ (if (env.enter memory).board.id = i then 1 else 0) + stores i)
      (hin.of_le fun i ↦ by omega)
    refine hc.of_le fun i ↦ ?_
    rw [stores_decorator_some, Memory.stores_keep, ← h.board.1]
    show _ ≤ _ + ((if inner.board.scope.id = i then 1 else 0) + _)
    omega

end Node.Evolves

end BehaviorTree
