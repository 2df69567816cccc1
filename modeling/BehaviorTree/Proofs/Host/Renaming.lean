import BehaviorTree.Proofs.Host.Trace
import BehaviorTree.Proofs.Tree.Copy

/-!
# Renamed leaves

A tree behaves the same whatever its leaves are called and whatever is in the trace before: only
the names in its own part of the trace differ. If the world makes no difference to hooks, a tree
behaves as it does in no world at all. So what a tree does is known from a tree with names of its
own and an empty trace (`serve_renamed`, `instantiate_renamed`).
-/

namespace BehaviorTree

variable {ο σ ν μ ω : Type}

/-- A call of a hook of a leaf that has another name. -/
def HookEvent.rename (ρ : ν → μ) (e : HookEvent ν) : HookEvent μ := ⟨ρ e.leaf, e.hook, e.seen⟩

namespace Behavior

/-- Hooks to which the world makes no difference: what they answer and leave of the leaf and the
blackboard does not depend on it. -/
structure Secluded (B : Behavior ο σ ω) : Prop where
  awake : ∀ owner s w w', (B.awake owner s w).1 = (B.awake owner s w').1
  start : ∀ s b w w', (B.start s b w).state = (B.start s b w').state ∧
    (B.start s b w).entries = (B.start s b w').entries
  run : ∀ s b w w', (B.run s b w).1 = (B.run s b w').1 ∧
    (B.run s b w).2.state = (B.run s b w').2.state ∧
    (B.run s b w).2.entries = (B.run s b w').2.entries
  stop : ∀ s b w w', (B.stop s b w).state = (B.stop s b w').state ∧
    (B.stop s b w).entries = (B.stop s b w').entries
  evaluate : ∀ s b w w', (B.evaluate s b w).1 = (B.evaluate s b w').1

/-- The hooks as they work in one world, which they cannot change. -/
def within (B : Behavior ο σ ω) (w : ω) : Behavior ο σ Unit where
  awake owner s _ := ((B.awake owner s w).1, ())
  start s b _ := ⟨(B.start s b w).state, (B.start s b w).entries, ()⟩
  run s b _ := ((B.run s b w).1, ⟨(B.run s b w).2.state, (B.run s b w).2.entries, ()⟩)
  stop s b _ := ⟨(B.stop s b w).state, (B.stop s b w).entries, ()⟩
  evaluate s b _ := ((B.evaluate s b w).1, ())

variable {B : Behavior ο σ ω}

/-- Hooks that see no identities see none with a world of their own. -/
theorem Blind.within (h : B.Blind) (w : ω) : (B.within w).Blind where
  start s _ _ _ hb := by simp only [Behavior.within, h.start s w hb]
  run s _ _ _ hb := by simp only [Behavior.within, h.run s w hb]
  stop s _ _ _ hb := by simp only [Behavior.within, h.stop s w hb]
  evaluate s _ _ _ hb := by simp only [Behavior.within, h.evaluate s w hb]

/-- In any world secluded hooks leave the same traces as in one world. -/
theorem Secluded.projects (h : B.Secluded) (w₀ : ω) :
    (B.traced : Behavior ο (ν × σ) _).Projects (B.within w₀).traced (fun s ↦ s)
      fun w ↦ ((), w.2) where
  awake owner s w := by
    simp only [traced, Behavior.within, h.awake owner s.2 w.1 w₀]
    cases (B.awake owner s.2 w₀).1 <;> rfl
  start s b w := by
    simp only [traced, Behavior.within, Effect.noted, Effect.map, h.start s.2 b w.1 w₀]
  run s b w := by
    simp only [traced, Behavior.within, Effect.noted, Effect.map, h.run s.2 b w.1 w₀]
  stop s b w := by
    simp only [traced, Behavior.within, Effect.noted, Effect.map, h.stop s.2 b w.1 w₀]
  evaluate s b w := by
    simp only [traced, Behavior.within, h.evaluate s.2 b w.1 w₀]

/-- Leaves with other names do the same, and so they do behind any trace. -/
theorem projects_renamed (B : Behavior ο σ ω) (ρ : ν → μ) (base : List (HookEvent μ)) :
    (B.traced : Behavior ο (ν × σ) _).Projects B.traced (fun s ↦ (ρ s.1, s.2))
      fun w ↦ (w.1, base ++ w.2.map (HookEvent.rename ρ)) where
  awake owner s w := by
    simp only [traced]
    cases (B.awake owner s.2 w.1).1 <;> simp [Except.map, HookEvent.rename]
  start s b w := by simp [traced, Effect.noted, Effect.map, HookEvent.rename]
  run s b w := by simp [traced, Effect.noted, Effect.map, HookEvent.rename]
  stop s b w := by simp [traced, Effect.noted, Effect.map, HookEvent.rename]
  evaluate s b w := by simp [traced, HookEvent.rename]

end Behavior

namespace Tree

/-- The tree with other names of its leaves. -/
def renamed (ρ : ν → μ) (t : Tree ο (ν × σ)) : Tree ο (μ × σ) := t.map fun s ↦ (ρ s.1, s.2)

variable {B : Behavior ο σ ω}

/-- A request to a renamed tree comes out as it would in one world behind an empty trace. -/
theorem serve_renamed (h : B.Secluded) (w₀ : ω) (ρ : ν → μ) (t : Tree ο (ν × σ))
    (request : Request) (env : Env (ω × List (HookEvent μ))) :
    let r := t.serve (B.within w₀).traced request ⟨⟨((), []), env.fresh⟩, env.board⟩
    let r' := (t.renamed ρ).serve B.traced request env
    r'.tree = r.tree.renamed ρ ∧ r'.env.fresh = r.env.fresh ∧ r'.env.board = r.env.board ∧
      r'.env.world.2 = env.world.2 ++ r.env.world.2.map (HookEvent.rename ρ) := by
  intro r r'
  have hworld := serve_map (h.projects w₀) (t.renamed ρ) request env
  have hnames := serve_map ((B.within w₀).projects_renamed ρ env.world.2) t request
    ⟨⟨((), []), env.fresh⟩, env.board⟩
  have henv : Env.map (fun w : Unit × List (HookEvent ν) ↦
        (w.1, env.world.2 ++ w.2.map (HookEvent.rename ρ)))
      ⟨⟨((), []), env.fresh⟩, env.board⟩ = env.map fun w ↦ ((), w.2) := by
    simp [Env.map]
  rw [map_self] at hworld
  rw [henv] at hnames
  have hserved := hworld.symm.trans hnames
  have htree : r'.tree.map (fun s ↦ s) = r.tree.renamed ρ := congrArg Served.tree hserved
  have hout := congrArg Served.env hserved
  rw [map_self] at htree
  refine ⟨htree, congrArg (·.fresh) hout, congrArg (·.board) hout, congrArg (·.world.2) hout⟩

/-- A renamed prototype is instantiated from any pool as it would be in one world, from an empty
pool and behind an empty trace. -/
theorem instantiate_renamed (h : B.Secluded) (w₀ : ω) (ρ : ν → μ) (t : Tree ο (ν × σ)) (owner : ο)
    {host : Host (μ × σ) (ω × List (HookEvent μ))} (hp : host.pool.Keyed) :
    let r := t.instantiate (B.within w₀).traced owner ⟨⟨((), []), ⟨0⟩⟩, .empty 0⟩
    let r' := (t.renamed ρ).instantiate B.traced owner host
    r.1.map (fun x ↦ x.root.frame fun s ↦ (ρ s.1, s.2)) =
        r'.1.map (fun x ↦ x.root.frame fun s ↦ s) ∧
      r'.2.world.2 = host.world.2 ++ r.2.world.2.map (HookEvent.rename ρ) := by
  intro r r'
  let first : Host (ν × σ) (Unit × List (HookEvent ν)) := ⟨⟨((), []), ⟨0⟩⟩, .empty 0⟩
  let behind : Host (μ × σ) (Unit × List (HookEvent μ)) := ⟨⟨((), host.world.2), ⟨0⟩⟩, .empty 0⟩
  have hfirst : first.pool.Keyed := Pool.keyed_empty 0
  have hbehind : behind.pool.Keyed := Pool.keyed_empty 0
  have hworld := instantiate_agree (h.projects w₀) hp hbehind rfl (t.renamed ρ) owner
  have hnames := instantiate_agree ((B.within w₀).projects_renamed ρ host.world.2) hfirst hbehind
    (by simp [first, behind]) t owner
  rw [map_self] at hworld
  refine ⟨hnames.1.trans hworld.1.symm, ?_⟩
  exact congrArg Prod.snd (hworld.2.symm.trans hnames.2)

end Tree

end BehaviorTree
