import BehaviorTree.Proofs.Host.Renaming
import BehaviorTree.Proofs.Node.Leaves
import BehaviorTree.Proofs.Runner.Places

/-!
# Bystanders

Each agent's leaves carry its id in their names, so that the trace of a squad tells whose hooks were
called. Acts of other agents leave an agent and its part of the trace as they are (`passes_acts`).
-/

namespace BehaviorTree

variable {ο σ ν ω : Type}

namespace Tree

variable (B : Behavior ο σ ω) (t : Tree ο σ)

/-- A request stores no scope twice. -/
theorem distinct_serve (request : Request) (env : Env ω) {stores : ScopeId → Nat}
    (h : Distinct env.fresh fun i ↦ t.root.stores i + stores i) :
    let r := t.serve B request env
    Distinct r.env.fresh fun i ↦ r.tree.root.stores i + stores i := by
  obtain ⟨board, -, hevolves⟩ := t.evolves_serve B request env
  exact hevolves.distinct stores h

/-- No request gives back an identity. -/
theorem fresh_serve (request : Request) (env : Env ω) :
    env.fresh.number ≤ (t.serve B request env).env.fresh.number := by
  obtain ⟨board, -, hevolves⟩ := t.evolves_serve B request env
  exact hevolves.fresh_le

/-- Instantiating gives out no identities. -/
theorem fresh_instantiate (owner : ο) (host : Host σ ω) :
    (t.instantiate B owner host).2.fresh = host.fresh :=
  (t.framed_instantiate B owner host).fresh

/-- An instance has not answered yet. -/
theorem lastStatus_instantiate {owner : ο} {host : Host σ ω} {x : Tree ο σ}
    (h : (t.instantiate B owner host).1 = .ok x) : x.lastStatus = none := by
  unfold instantiate at h
  split at h
  · cases h
  · simp only at h
    cases hr : (t.root.copy B owner host.pool host.world).1 with
    | error e =>
      rw [hr] at h
      cases h
    | ok root =>
      rw [hr] at h
      cases h
      rfl

end Tree

namespace Squad

/-- How many scopes in the trees of the agents and in the pool have an identity. -/
def stores (s : Squad ο σ ω) (i : ScopeId) : Nat :=
  Node.storesAll (s.runner.agents.map (·.tree.root)) i + s.host.pool.stores i

/-- Whether each free node lies in its stack, and no scope is stored twice. -/
structure Tidy (s : Squad ο σ ω) : Prop where
  keyed : s.host.pool.Keyed
  distinct : Distinct s.host.fresh s.stores

section

variable {B : Behavior ο σ ω} {made : UInt64 → Tree ο σ → Prop} {who : UInt64 → Prop}
  {s s' : Squad ο σ ω}

/-- No act makes a squad untidy. -/
theorem tidy_act (h : s.Tidy) (ha : s.Act B made who s') : s'.Tidy := by
  have hd := h.distinct
  cases ha with
  | @serve before after a hs hw request lastThink =>
    refine ⟨h.keyed, ?_⟩
    let others (i : ScopeId) : Nat := Node.storesAll (before.map (·.tree.root)) i +
      Node.storesAll (after.map (·.tree.root)) i + s.host.pool.stores i
    have hbefore : Distinct s.host.fresh fun i ↦ a.tree.root.stores i + others i := by
      refine hd.of_le fun i ↦ ?_
      simp only [stores, hs, List.map_append, List.map_cons, Node.storesAll_append,
        Node.storesAll_cons, others]
      omega
    have hserved := a.tree.distinct_serve B request { s.host.toOutside with board := a.board }
      hbefore
    refine hserved.of_le fun i ↦ ?_
    simp only [stores, withAgents, Agent.serve, List.map_append, List.map_cons,
      Node.storesAll_append, Node.storesAll_cons, others]
    omega
  | @write before after a hs hw f =>
    refine ⟨h.keyed, hd.of_le fun i ↦ ?_⟩
    simp only [stores, hs, withAgents, Agent.mapEntries, List.map_append, List.map_cons]
    exact Nat.le_refl _
  | @hire before after hs id hw t hm owner tree host hi =>
    have hmade := t.framed_instantiate B owner s.host
    rw [hi] at hmade
    have hfresh : host.fresh = s.host.fresh := hmade.fresh
    refine ⟨hmade.keyed h.keyed, ?_⟩
    have hkept : Distinct host.fresh s.stores := hfresh ▸ hd
    refine (hkept.mono (Nat.le_succ _)).of_le fun i ↦ ?_
    have hpool : tree.root.stores i + host.pool.stores i ≤ s.host.pool.stores i := hmade.stores i
    simp only [stores, hs, withAgents, List.map_append, List.map_cons, Node.storesAll_append,
      Node.storesAll_cons]
    omega
  | @refuse id hw t hm owner e host hi =>
    have hmade := t.framed_instantiate B owner s.host
    rw [hi] at hmade
    have hfresh : host.fresh = s.host.fresh := hmade.fresh
    refine ⟨hmade.keyed h.keyed, ?_⟩
    have hkept : Distinct host.fresh s.stores := hfresh ▸ hd
    refine hkept.of_le fun i ↦ ?_
    have hpool : 0 + host.pool.stores i ≤ s.host.pool.stores i := hmade.stores i
    simp only [stores, withAgents]
    omega
  | @leave before after a hs hw hstopped =>
    refine ⟨h.keyed.release a.tree.root, hd.of_le fun i ↦ ?_⟩
    have hpool : (a.tree.release s.host.pool).stores i ≤
      a.tree.root.stores i + s.host.pool.stores i := by
      have hr := s.host.pool.stores_release_le a.tree.root i
      rw [Tree.release]
      omega
    simp only [stores, hs, withAgents, List.map_append, List.map_cons, Node.storesAll_append,
      Node.storesAll_cons]
    omega

end

end Squad

/-! ### Signed trees -/

/-- The tree with the id of an agent in the names of its leaves. -/
def Tree.signed (id : UInt64) (t : Tree ο (ν × σ)) : Tree ο ((UInt64 × ν) × σ) :=
  t.renamed (Prod.mk id)

/-- Whether a tree is signed with an id. -/
def Tree.Signed (id : UInt64) (t : Tree ο ((UInt64 × ν) × σ)) : Prop :=
  ∃ u : Tree ο (ν × σ), t = u.signed id

/-- What becomes of a signed prototype depends on neither the world nor the pool: an error, or an
unused instance that is signed. -/
theorem Tree.instantiate_signed {B : Behavior ο σ ω} (h : B.Secluded) (w₀ : ω) (id : UInt64)
    (t : Tree ο (ν × σ)) (owner : ο)
    {host : Host ((UInt64 × ν) × σ) (ω × List (HookEvent (UInt64 × ν)))} (hp : host.pool.Keyed) :
    let r := t.instantiate (B.within w₀).traced owner ⟨⟨((), []), ⟨0⟩⟩, .empty 0⟩
    let r' := (t.signed id).instantiate B.traced owner host
    r'.2.world.2 = host.world.2 ++ r.2.world.2.map (HookEvent.rename (Prod.mk id)) ∧
      ((∃ e, r.1 = .error e ∧ r'.1 = .error e) ∨
        ∃ y u : Tree ο (ν × σ), r.1 = .ok y ∧ r'.1 = .ok (u.signed id) ∧
          u.root.frame (fun s ↦ s) = y.root.frame fun s ↦ s) := by
  intro r r'
  obtain ⟨hframe, hlog⟩ := t.instantiate_renamed h w₀ (Prod.mk id) owner hp
  refine ⟨hlog, ?_⟩
  rcases map_eq_map_cases hframe with ⟨e, hr, hr'⟩ | ⟨y, x, hr, hr', hx⟩
  · exact .inl ⟨e, hr, hr'⟩
  · obtain ⟨root, hroot, hsame⟩ := Node.exists_map_of_frame (g := fun s ↦ (s.1.2, s.2))
      (fun _ ↦ rfl) hx
    let u : Tree ο (ν × σ) := ⟨root, x.registry, x.owner, x.isInstance, x.lastStatus⟩
    refine .inr ⟨y, u, hr, hr'.trans ?_, hsame⟩
    rw [signed, renamed, map, ← hroot]

/-- What becomes of an agent with a signed tree depends on neither the world nor the trace
before. -/
theorem Agent.serve_signed {B : Behavior ο σ ω} (h : B.Secluded) (w₀ : ω)
    {a : Agent ο ((UInt64 × ν) × σ)} {u : Tree ο (ν × σ)} (hu : a.tree = u.signed a.id)
    (request : Request) (lastThink : Option UInt64)
    (outside : Outside (ω × List (HookEvent (UInt64 × ν)))) :
    let r := u.serve (B.within w₀).traced request ⟨⟨((), []), outside.fresh⟩, a.board⟩
    let r' := a.serve B.traced request lastThink outside
    r'.1 = { a with tree := r.tree.signed a.id, scope := r.env.board.scope, lastThink } ∧
      r'.2.fresh = r.env.fresh ∧
      r'.2.world.2 = outside.world.2 ++ r.env.world.2.map (HookEvent.rename (Prod.mk a.id)) := by
  intro r r'
  obtain ⟨htree, hfresh, hboard, hlog⟩ :=
    u.serve_renamed h w₀ (Prod.mk a.id) request ⟨outside, a.board⟩
  simp only [r', serve, hu]
  refine ⟨?_, hfresh, hlog⟩
  exact congrArg₂ (fun tree board ↦ ({ a with tree, scope := board.scope, lastThink } : Agent _ _))
    htree hboard

namespace Squad

variable {B : Behavior ο σ ω} {id : UInt64}
  {s t : Squad ο ((UInt64 × ν) × σ) (ω × List (HookEvent (UInt64 × ν)))}

/-- Whether a squad is tidy, with each tree signed by its agent. -/
structure Orderly (s : Squad ο ((UInt64 × ν) × σ) (ω × List (HookEvent (UInt64 × ν)))) : Prop where
  tidy : s.Tidy
  signed : ∀ a ∈ s.runner.agents, a.tree.Signed a.id

private theorem orderly_act (hB : B.Secluded) {who : UInt64 → Prop} (h : s.Orderly)
    (ha : s.Act B.traced Tree.Signed who t) : t.Orderly := by
  refine ⟨tidy_act h.tidy ha, ha.forall_agents h.signed ?_ (fun _ hu _ ↦ hu) ?_⟩
  · rintro a ⟨u, hu⟩ request lastThink outside
    have hserved := Agent.serve_signed hB outside.world.1 hu request lastThink outside
    exact ⟨_, congrArg (·.tree) hserved.1⟩
  · rintro id _ tree owner host hw ⟨u, rfl⟩ hi
    have hmade := u.instantiate_signed hB s.host.world.1 id owner h.tidy.keyed
    rw [hi] at hmade
    rcases hmade.2 with ⟨e, -, he⟩ | ⟨y, v, -, hv, -⟩
    · cases he
    · cases hv
      exact ⟨v, rfl⟩

/-- An orderly squad is orderly after acts that create signed trees. -/
theorem orderly_acts (hB : B.Secluded) {who : UInt64 → Prop} (h : s.Orderly)
    (ha : s.Acts B.traced Tree.Signed who t) : t.Orderly := by
  induction ha with
  | refl => exact h
  | tail _ hact ih => exact orderly_act hB ih hact

/-! ### Acts of others -/

/-- The calls of hooks of an agent's leaves. -/
def calls (s : Squad ο σ (ω × List (HookEvent (UInt64 × ν)))) (id : UInt64) :
    List (HookEvent (UInt64 × ν)) := s.host.world.2.filter fun e ↦ e.leaf.1 == id

/-- Whether an agent and its part of the trace stay as they are. -/
structure Passes (id : UInt64)
    (s t : Squad ο ((UInt64 × ν) × σ) (ω × List (HookEvent (UInt64 × ν)))) : Prop where
  schedule : t.runner.schedule = s.runner.schedule
  agent : t.runner.find? id = s.runner.find? id
  calls : t.calls id = s.calls id
  fresh : s.host.fresh.number ≤ t.host.fresh.number

/-- An agent stays as it is where nothing happens. -/
theorem Passes.refl (s : Squad ο ((UInt64 × ν) × σ) (ω × List (HookEvent (UInt64 × ν)))) :
    s.Passes id s := ⟨rfl, rfl, rfl, Nat.le_refl _⟩

private theorem Passes.trans {s' : Squad ο ((UInt64 × ν) × σ) (ω × List (HookEvent (UInt64 × ν)))}
    (h : s.Passes id t) (h' : t.Passes id s') : s.Passes id s' :=
  ⟨h'.schedule.trans h.schedule, h'.agent.trans h.agent, h'.calls.trans h.calls,
    Nat.le_trans h.fresh h'.fresh⟩

/-- In the part of another agent there is nothing of the calls of an agent's leaves. -/
theorem filter_signed {other : UInt64} (h : other ≠ id) (log : List (HookEvent (UInt64 × ν)))
    (events : List (HookEvent ν)) :
    (log ++ events.map (HookEvent.rename (Prod.mk other))).filter (fun e ↦ e.leaf.1 == id) =
      log.filter fun e ↦ e.leaf.1 == id := by
  rw [List.filter_append, List.filter_map]
  simp [Function.comp_def, HookEvent.rename, h]

/-- What is done with another agent leaves an agent as it is. -/
theorem passes_act (hB : B.Secluded) (h : s.Orderly)
    (ha : s.Act B.traced Tree.Signed (· ≠ id) t) : s.Passes id t := by
  have hagent := find?_act ha
  cases ha with
  | @serve before after a hs hw request lastThink =>
    obtain ⟨u, hu⟩ := h.signed a (by rw [hs]; simp)
    have hserved := Agent.serve_signed hB s.host.world.1 hu request lastThink s.host.toOutside
    have hfresh := a.tree.fresh_serve B.traced request { s.host.toOutside with board := a.board }
    refine ⟨rfl, hagent, ?_, hfresh⟩
    exact (congrArg (List.filter _) hserved.2.2).trans (filter_signed hw _ _)
  | write => exact ⟨rfl, hagent, rfl, Nat.le_refl _⟩
  | @hire before after hs k hw t hm owner tree host hi =>
    obtain ⟨u, rfl⟩ := hm
    have hmade := u.instantiate_signed hB s.host.world.1 k owner h.tidy.keyed
    have hfresh := (u.signed k).fresh_instantiate B.traced owner s.host
    rw [hi] at hmade hfresh
    refine ⟨rfl, hagent, ?_, ?_⟩
    · exact (congrArg (List.filter _) hmade.1).trans (filter_signed hw _ _)
    · exact Nat.le_trans (Nat.le_of_eq (congrArg ScopeId.number hfresh.symm)) (Nat.le_succ _)
  | @refuse k hw t hm owner e host hi =>
    obtain ⟨u, rfl⟩ := hm
    have hmade := u.instantiate_signed hB s.host.world.1 k owner h.tidy.keyed
    have hfresh := (u.signed k).fresh_instantiate B.traced owner s.host
    rw [hi] at hmade hfresh
    refine ⟨rfl, hagent, ?_, Nat.le_of_eq (congrArg ScopeId.number hfresh.symm)⟩
    exact (congrArg (List.filter _) hmade.1).trans (filter_signed hw _ _)
  | leave => exact ⟨rfl, hagent, rfl, Nat.le_refl _⟩

/-- An agent stays as it is through acts on others. -/
theorem passes_acts (hB : B.Secluded) (h : s.Orderly)
    (ha : s.Acts B.traced Tree.Signed (· ≠ id) t) : s.Passes id t := by
  induction ha with
  | refl => exact .refl s
  | tail hacts hact ih => exact ih.trans (passes_act hB (orderly_acts hB h hacts) hact)

end Squad

end BehaviorTree
