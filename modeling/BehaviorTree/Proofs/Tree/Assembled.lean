import BehaviorTree.Proofs.Guard.Instance
import BehaviorTree.Proofs.Lifecycle.Lawful
import BehaviorTree.Proofs.Lifecycle.Order
import BehaviorTree.Proofs.Tree.Copy
import BehaviorTree.Proofs.Tree.Projection
import BehaviorTree.Proofs.Tree.Prototype

/-!
# The registry of a tree

However a tree came about, as a prototype or as an instance, and whatever its hosts have asked of
it, its registry lists the identifiers of its nodes, each once and in pre-order.
`runs_follow_registry` says that one request runs leaves in the order of the registry.
-/

namespace BehaviorTree

variable {ο σ ω : Type}

namespace Tree

/-- Whether a tree is the prototype that was made of a root or an instance of it, which may have
been ticked and stopped since. -/
inductive Arisen (B : Behavior ο σ ω) (root : Node σ) : Tree ο σ → Prop where
  | prototype {t : Tree ο σ} (h : Tree.prototype root = .ok t) : Arisen B root t
  | instantiated {t x : Tree ο σ} {owner : ο} {host host' : Host σ ω} (ht : Arisen B root t)
      (h : t.instantiate B owner host = (.ok x, host')) : Arisen B root x
  | served {t : Tree ο σ} (ht : Arisen B root t) (request : Request) (env : Env ω) :
      Arisen B root (t.serve B request env).tree

/-- Whether a tree was assembled from unused nodes; it may have been ticked and stopped since. -/
inductive Assembled (B : Behavior ο σ ω) : Tree ο σ → Prop where
  | prototype {root : Node σ} {t : Tree ο σ} (hu : root.AllUnused)
      (h : Tree.prototype root = .ok t) : Assembled B t
  | instantiated {t x : Tree ο σ} {owner : ο} {host host' : Host σ ω} (ht : Assembled B t)
      (h : t.instantiate B owner host = (.ok x, host')) : Assembled B x
  | served {t : Tree ο σ} (ht : Assembled B t) (request : Request) (env : Env ω) :
      Assembled B (t.serve B request env).tree

variable {B : Behavior ο σ ω}

/-- A request leaves the registry as it is. -/
@[simp] theorem registry_serve (t : Tree ο σ) (request : Request) (env : Env ω) :
    (t.serve B request env).tree.registry = t.registry := by
  cases request <;> rfl

private theorem registry_serveAll (t : Tree ο σ) (calls : List (Call ω)) :
    (t.serveAll B calls).tree.registry = t.registry := by
  induction calls generalizing t with
  | nil => rfl
  | cons call rest ih => exact (ih _).trans (t.registry_serve call.request call.env)

/-- The registry of a prototype lists its nodes in pre-order. -/
theorem IsPrototype.registry {t : Tree ο σ} (h : t.IsPrototype B) : t.registry = t.root.ids := by
  obtain ⟨root, made, calls, hmade, rfl⟩ := h
  obtain ⟨rfl, -⟩ := eq_of_prototype hmade
  rw [registry_serveAll, ((Tree.serveAll_kept calls _).1)]

/-- An instance shares the registry of its prototype. -/
theorem registry_instantiate {t x : Tree ο σ} {owner : ο} {host host' : Host σ ω}
    (h : t.instantiate B owner host = (.ok x, host')) : x.registry = t.registry := by
  unfold instantiate at h
  split at h
  · cases h
  · have hx := congrArg Prod.fst h
    cases hc : (t.root.copy B owner host.pool host.world).1 with
    | error e => simp [hc, Except.map] at hx
    | ok root =>
      simp only [hc, Except.map, Except.ok.injEq] at hx
      rw [← hx]

/-- The nodes of an instance have the identifiers of those of its prototype. -/
theorem ids_instantiate {t x : Tree ο σ} {owner : ο} {host host' : Host σ ω}
    (h : t.instantiate B owner host = (.ok x, host')) : x.root.ids = t.root.ids := by
  have hframe := (t.framed_instantiate B owner host).frame x (congrArg Prod.fst h)
  rw [Node.map_self] at hframe
  have hids := congrArg Node.ids hframe
  rwa [Node.frame, Node.frame, Node.ids_recast, Node.ids_recast] at hids

/-- The registry lists the nodes of the root in pre-order, each once, and so does what became of the
root. -/
theorem Arisen.registry {root : Node σ} {t : Tree ο σ} (h : t.Arisen B root) :
    t.registry = root.ids ∧ t.root.ids = root.ids ∧ root.ids.Nodup := by
  induction h with
  | prototype h =>
    obtain ⟨rfl, hn⟩ := eq_of_prototype h
    exact ⟨rfl, rfl, hn⟩
  | instantiated ht h ih => rwa [registry_instantiate h, ids_instantiate h]
  | served ht request env ih => rwa [registry_serve, (serve_kept _ request env).1]

private theorem Assembled.arisen {t : Tree ο σ} (h : t.Assembled B) : ∃ root, t.Arisen B root := by
  induction h with
  | prototype hu h => exact ⟨_, .prototype h⟩
  | instantiated ht h ih =>
    obtain ⟨root, hroot⟩ := ih
    exact ⟨root, hroot.instantiated h⟩
  | served ht request env ih =>
    obtain ⟨root, hroot⟩ := ih
    exact ⟨root, hroot.served request env⟩

/-- The registry lists the nodes of the tree in pre-order, each once. -/
theorem Assembled.registry {t : Tree ο σ} (h : t.Assembled B) :
    t.registry = t.root.ids ∧ t.registry.Nodup := by
  obtain ⟨root, hroot⟩ := h.arisen
  obtain ⟨hregistry, hids, hn⟩ := hroot.registry
  rw [hregistry, hids]
  exact ⟨rfl, hn⟩

/-- The leaves that one request runs are some of those of the tree, in their order. -/
theorem ran_serve {ν : Type} (t : Tree ο (ν × σ)) (request : Request)
    (env : Env (ω × List (HookEvent ν))) :
    env.Ran (t.serve B.traced request env).env t.root.names := by
  rcases t.serve_cases B.traced request env with ⟨board, h⟩ | h
  · rw [h]
    exact Node.ran_run t.root { env with board }
  · rw [h]
    exact (Node.evolves_abort_hushed t.root env).quiet.mono (List.nil_sublist _)

/-- In one tick of a tree that was assembled from unused nodes, whatever was asked of it before, the
leaves that are run are a part of the registry in its order, which has no identifier twice. Tracing
the hooks changes nothing else. -/
theorem runs_follow_registry {t : Tree ο σ} (ht : t.Assembled B) (request : Request)
    (env : Env ω) :
    let r := t.sited.serve B.traced request (env.map fun w ↦ (w, []))
    r.map Prod.snd Prod.fst = t.serve B request env ∧
      ((ranLeaves r.env.world.2).map Site.id).Sublist t.registry ∧
      t.registry = t.root.preorder.map Node.id ∧ t.registry.Nodup := by
  intro r
  obtain ⟨hregistry, hnodup⟩ := ht.registry
  refine ⟨?_, ?_, hregistry, hnodup⟩
  · have hmap := serve_map B.projects_traced t.sited request (env.map fun w ↦ (w, []))
    rw [map_snd_sited] at hmap
    exact hmap.symm
  · obtain ⟨events, hevents, hran⟩ := t.sited.ran_serve (B := B) request (env.map fun w ↦ (w, []))
    obtain rfl : r.env.world.2 = events := hevents
    have hsites : (t.sited.root.names.map Site.id).Sublist t.registry := by
      rw [hregistry, Node.names, List.map_map]
      exact t.root.siteIds_sited_sublist []
    exact (hran.map Site.id).trans hsites

/-- The guard's tree in its second tick. -/
theorem runs_follow_registry_guard :
    let made : Tree Owner Leaf := ⟨Guard.root 1 0.5, (Guard.root 1 0.5).ids, none, false, none⟩
    let env : Env World := ⟨⟨.initial, ⟨2⟩⟩, (Scope.empty ⟨0⟩).alone⟩
    let t := (made.serve Leaf.behavior (.tickWith ⟨0, 0.1⟩) env).tree
    t.Assembled Leaf.behavior ∧
      let r := t.sited.serve Leaf.behavior.traced .tick (env.map fun w ↦ (w, []))
      r.map Prod.snd Prod.fst = t.serve Leaf.behavior .tick env ∧
        ((ranLeaves r.env.world.2).map Site.id).Sublist t.registry ∧
        t.registry = t.root.preorder.map Node.id ∧ t.registry.Nodup := by
  intro made env t
  have hmade : made.Assembled Leaf.behavior :=
    .prototype (Guard.allUnused_root 1 0.5) (Guard.prototype_eq 0.5)
  have ht : t.Assembled Leaf.behavior := hmade.served (.tickWith ⟨0, 0.1⟩) env
  exact ⟨ht, runs_follow_registry ht .tick env⟩

end Tree

end BehaviorTree
