import BehaviorTree.Proofs.Tree.Closing
import BehaviorTree.Proofs.Twin.Quiet

/-!
# Instances made anew

Two instances of one tree are the same, but for identities of scopes, if nothing happened in between
that the hooks of their leaves can tell. That is so if the tree has no leaves, and if all that was
done in between is an abort that came upon no started leaf.
-/

namespace BehaviorTree

variable {ο σ ω : Type}

namespace Node

variable {B : Behavior ο σ ω} {L : Phase → σ → Prop} {n m : Node σ} {ns : List (Node σ)}

/-- Nodes that are no leaves have nothing to bind. -/
theorem bindEach_of_no_leaves (h : leafStates ns = []) (owner : ο) (w : ω) :
    bindEach B owner ns w = ⟨ns, none, w⟩ := by
  induction ns with
  | nil => rfl
  | cons n rest ih =>
    cases n with
    | leaf => cases h
    | composite => simp only [bindEach, awake, ih h]
    | decorator => simp only [bindEach, awake, ih h]

/-- Without leaves, frames are the same whatever of the leaves they show. -/
theorem frame_eq_of_no_states [Nonempty σ] (h : n.frame (fun _ ↦ ()) = m.frame fun _ ↦ ())
    (hn : n.states = []) (hm : m.states = []) :
    n.frame (fun s ↦ s) = m.frame fun s ↦ s := by
  have ⟨s⟩ := ‹Nonempty σ›
  have hframe {k : Node σ} (hk : k.states = []) :
      k.frame (fun s ↦ s) = (k.frame fun _ ↦ ()).frame fun _ ↦ s := by
    have hmap : (k.map fun _ ↦ s) = k := map_eq_self (by simp [hk])
    rw [frame_frame, ← frame_map (fun _ ↦ s) fun s ↦ s, hmap]
  rw [hframe hn, hframe hm, h]

/-- Unused subtrees of one frame differ only in identities of scopes. -/
theorem plain_eq_of_frame (h : n.frame (fun s ↦ s) = m.frame fun s ↦ s) (hn : n.AllUnused)
    (hm : m.AllUnused) : n.plain = m.plain := by
  have htwins : Twins (fun s ↦ s) True (fun _ _ ↦ False) n m := by
    refine twins_of_frame h ?_ ?_
    · exact fun k hk ↦ ⟨quiet_of_allUnused hn k hk, fun _ ↦ hn k hk, fun _ _ _ hno ↦ hno⟩
    · exact fun k hk ↦ ⟨quiet_of_allUnused hm k hk, fun _ ↦ hm k hk, fun _ _ _ hno ↦ hno⟩
  exact htwins.plain_eq

private theorem world_abortAll_of_no_open (hns : ∀ c ∈ ns, c.openStates = [])
    (ih : ∀ c ∈ ns, c.openStates = [] → ∀ env : Env ω, (c.abort B env).2.world = env.world)
    (env : Env ω) : (abortAll B ns env).2.world = env.world := by
  induction ns generalizing env with
  | nil => rfl
  | cons c rest rest_ih =>
    have hrest := rest_ih (fun d hd ↦ hns d (List.mem_cons_of_mem _ hd))
      fun d hd ↦ ih d (List.mem_cons_of_mem _ hd)
    simp only [abortAll, hrest]
    split
    · exact ih c List.mem_cons_self (hns c List.mem_cons_self) env
    · rfl

/-- An abort that comes upon no started leaf leaves the world as it is. -/
theorem world_abort_of_no_open (h : n.AllSteady L) (ho : n.openStates = []) (env : Env ω) :
    (n.abort B env).2.world = env.world := by
  induction n using child_induction generalizing env with
  | step n ih =>
    obtain ⟨hhere, hbelow⟩ := List.append_eq_nil_iff.mp (n.openStates_eq.symm.trans ho)
    rw [List.flatMap_eq_nil_iff] at hbelow
    cases hs : n.started with
    | false => rw [abort_of_not_started hs]
    | true =>
      have hleaf : n.leaf? = none := by
        rw [List.filter_cons_of_pos hs, List.filter_nil, leafStates] at hhere
        simpa using hhere
      obtain ⟨inner, hinner, -, hworld⟩ := abort_of_steady (B := B) h hs hleaf env
      rw [hworld, ← hinner]
      exact world_abortAll_of_no_open hbelow (fun c hc ho env ↦ ih c hc (h.below hc) ho env) inner

end Node

namespace Tree

variable {B : Behavior ο σ ω} {t x : Tree ο σ} {owner : ο} {host : Host σ ω}

/-- What is new in an instance is its root. -/
theorem eq_of_made (h : (t.instantiate B owner host).1 = .ok x) :
    t.isInstance = false ∧ x = ⟨x.root, t.registry, some owner, true, none⟩ := by
  unfold instantiate at h
  split at h
  · cases h
  · next hi =>
    simp only at h
    cases hr : (t.root.copy B owner host.pool host.world).1 with
    | error e =>
      rw [hr] at h
      cases h
    | ok root =>
      rw [hr] at h
      cases h
      exact ⟨eq_false_of_ne_true hi, rfl⟩

/-- A tree without leaves can be instantiated on any host if it can be on one, and is the same. -/
theorem instantiate_of_no_states {host' : Host σ ω} [Nonempty σ] (hp' : host'.pool.Keyed)
    (ht : t.root.states = []) (h : (t.instantiate B owner host).1 = .ok x) :
    ∃ y, (t.instantiate B owner host').1 = .ok y ∧
      y.root.frame (fun s ↦ s) = x.root.frame fun s ↦ s := by
  obtain ⟨root, q, hy, -⟩ := instantiate_of_bound (eq_of_made h).1 hp'
    (Node.bindEach_of_no_leaves ht owner host'.world)
  have hok : (t.instantiate B owner host').1 = .ok ⟨root, t.registry, some owner, true, none⟩ := by
    rw [hy]
  have hx := (t.framed_instantiate B owner host).frame x h
  have hy' := (t.framed_instantiate B owner host').frame _ hok
  have hnone {k : Tree ο σ} (hk : k.root.frame (fun _ ↦ ()) = (t.root.frame fun _ ↦ ()).map id) :
      k.root.states = [] := by
    have hstates := congrArg Node.states hk
    rw [Node.frame, Node.states_recast, Node.states_map, Node.frame, Node.states_recast,
      ht] at hstates
    simpa using hstates
  exact ⟨_, hok, Node.frame_eq_of_no_states (hy'.trans hx.symm) (hnone hy') (hnone hx)⟩

end Tree

end BehaviorTree
