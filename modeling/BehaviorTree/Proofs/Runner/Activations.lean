import BehaviorTree.Proofs.Lifecycle.Registry
import BehaviorTree.Proofs.Runner.Ledger

/-!
# Activations in a squad

Each leaf that a squad ever bound has a number of its own. The leaves of the agents follow the
protocol of hooks, and those of agents that left have closed every activation (`enrolled_act`). So
whatever a runner was told, at every point the ledger of nodes is right, and once the runner is
given up all nodes are back and each activation had its one stop (`accounted_and_closed`).
-/

namespace BehaviorTree

variable {ο σ ω : Type}

/-- The numbers of the leaves of an agent. -/
def Agent.numbers (a : Agent ο (Nat × σ)) : List Nat := a.tree.root.numbers

namespace Squad

/-- Whether the leaves of some agents are in order, and all others have closed every activation. -/
structure Enrolled (agents : List (Agent ο (Nat × σ))) (host : Host (Nat × σ) (ω × Registry)) :
    Prop where
  keyed : host.pool.Keyed
  trees : ∀ a ∈ agents, a.tree.Enrolled host.world.2
  different : (agents.flatMap Agent.numbers).Nodup
  used : ∀ k ∈ agents.flatMap Agent.numbers, k < host.world.2.next
  blank : ∀ k, host.world.2.next ≤ k → host.world.2.record k = []
  closed : ∀ k ∉ agents.flatMap Agent.numbers, Balanced (host.world.2.record k)

variable {B : Behavior ο σ ω} {agents others : List (Agent ο (Nat × σ))} {a : Agent ο (Nat × σ)}
  {host : Host (Nat × σ) (ω × Registry)}

/-- The order of the agents does not matter. -/
theorem Enrolled.perm (h : Enrolled agents host) (hp : agents.Perm others) :
    Enrolled others host := by
  have hnumbers := hp.flatMap_right Agent.numbers
  constructor
  · exact h.keyed
  · exact fun a ha ↦ h.trees a (hp.mem_iff.mpr ha)
  · exact hnumbers.nodup_iff.mp h.different
  · exact fun k hk ↦ h.used k (hnumbers.mem_iff.mpr hk)
  · exact h.blank
  · exact fun k hk ↦ h.closed k fun hmem ↦ hk (hnumbers.mem_iff.mp hmem)

/-- Serving one agent concerns no other. -/
theorem Enrolled.serve (h : Enrolled (a :: others) host) (request : Request)
    (lastThink : Option UInt64) :
    let r := a.serve B.registered request lastThink host.toOutside
    Enrolled (r.1 :: others) { host with toOutside := r.2 } := by
  intro r
  have hd := h.different
  rw [List.flatMap_cons, List.nodup_append] at hd
  obtain ⟨hown, -, hapart⟩ := hd
  let env : Env (ω × Registry) := ⟨host.toOutside, a.board⟩
  have htree : a.tree.Enrolled env.world.2 := h.trees a List.mem_cons_self
  obtain ⟨htree, hsame, hnumbers⟩ :
      r.1.tree.Enrolled r.2.world.2 ∧ host.world.2.SameBut r.2.world.2 a.numbers ∧
        r.1.numbers = a.numbers := htree.serve hown request
  have hall : (r.1 :: others).flatMap Agent.numbers = (a :: others).flatMap Agent.numbers := by
    rw [List.flatMap_cons, List.flatMap_cons, hnumbers]
  have hnext : r.2.world.2.next = host.world.2.next := hsame.next
  constructor
  · exact h.keyed
  · intro b hb
    rcases List.mem_cons.mp hb with rfl | hb
    · exact htree
    · refine (h.trees b (List.mem_cons_of_mem _ hb)).of_sameBut hsame fun k hk hmem ↦ ?_
      exact hapart k hmem k (List.mem_flatMap.mpr ⟨b, hb, hk⟩) rfl
  · rw [hall]
    exact h.different
  · intro k hk
    show k < r.2.world.2.next
    rw [hnext]
    exact h.used k (hall ▸ hk)
  · intro k hk
    show r.2.world.2.record k = []
    have hk : host.world.2.next ≤ k := hnext ▸ hk
    rw [hsame.record k fun hmem ↦ ?_, h.blank k hk]
    exact absurd (h.used k (List.mem_flatMap.mpr ⟨a, List.mem_cons_self, hmem⟩)) (Nat.not_lt.mpr hk)
  · intro k hk
    show Balanced (r.2.world.2.record k)
    rw [hall] at hk
    rw [hsame.record k fun hmem ↦ ?_]
    · exact h.closed k hk
    · exact hk (List.mem_flatMap.mpr ⟨a, List.mem_cons_self, hmem⟩)

/-- Writing to a blackboard concerns no leaf. -/
theorem Enrolled.write (h : Enrolled (a :: others) host) (f : Entries → Entries) :
    Enrolled (a.mapEntries f :: others) host := by
  refine ⟨h.keyed, fun b hb ↦ ?_, h.different, h.used, h.blank, h.closed⟩
  rcases List.mem_cons.mp hb with rfl | hb
  · exact h.trees a List.mem_cons_self
  · exact h.trees b (List.mem_cons_of_mem _ hb)

/-- An agent that has been stopped leaves only closed activations behind. -/
theorem Enrolled.leave (h : Enrolled (a :: others) host) (hs : a.tree.root.started = false) :
    Enrolled others { host with pool := a.tree.release host.pool } := by
  have hd := h.different
  rw [List.flatMap_cons, List.nodup_append] at hd
  constructor
  · exact h.keyed.release a.tree.root
  · exact fun b hb ↦ h.trees b (List.mem_cons_of_mem _ hb)
  · exact hd.2.1
  · exact fun k hk ↦ h.used k (List.mem_append_right _ hk)
  · exact h.blank
  · intro k hk
    by_cases hown : k ∈ a.numbers
    · exact (h.trees a List.mem_cons_self).balanced hs k hown
    · refine h.closed k fun hmem ↦ ?_
      rcases List.mem_append.mp hmem with hmem | hmem
      · exact hown hmem
      · exact hk hmem

/-- A registry that only gave out numbers keeps a squad in order. -/
theorem Enrolled.advance (h : Enrolled others host) {host' : Host (Nat × σ) (ω × Registry)}
    (hk : host'.pool.Keyed) (hrecord : host'.world.2.record = host.world.2.record)
    (hnext : host.world.2.next ≤ host'.world.2.next) : Enrolled others host' := by
  constructor
  · exact hk
  · intro a ha
    obtain ⟨m, hm, hsteady, hfiled⟩ := h.trees a ha
    exact ⟨m, hm, hsteady, fun x hx ↦ by rw [hrecord]; exact hfiled x hx⟩
  · exact h.different
  · exact fun k hk ↦ Nat.lt_of_lt_of_le (h.used k hk) hnext
  · intro k hk
    rw [hrecord]
    exact h.blank k (Nat.le_trans hnext hk)
  · intro k hk
    rw [hrecord]
    exact h.closed k hk

/-- An agent with a new tree has leaves that nobody had before. -/
theorem Enrolled.hire (h : Enrolled others host) {t : Tree ο (Nat × σ)} {owner : ο}
    {tree : Tree ο (Nat × σ)} {host' : Host (Nat × σ) (ω × Registry)}
    (hi : t.instantiate B.registered owner host = (.ok tree, host')) (ha : a.tree = tree) :
    Enrolled (a :: others) { host' with fresh := host'.fresh.next } := by
  have hkeyed := t.keyed_instantiate B.registered owner h.keyed
  have hunused : tree.root.AllUnused := Tree.allUnused_of_made (congrArg Prod.fst hi)
  have hattempt := t.attempt_instantiate B.registered owner h.keyed
  rw [hi] at hkeyed hattempt
  cases hattempt with
  | @made bound w q _ hb hd hs =>
    have hbind := Node.registered_bindEach B owner t.root.preorder host.world
    rw [hb] at hbind
    obtain ⟨hrecord, hnext, hnumbers⟩ := hbind
    have hnew : a.numbers = List.range' host.world.2.next (Node.leafStates bound).length := by
      rw [← hnumbers, ← hs, ← ha]
      rfl
    have hothers : Enrolled others { host with pool := q, world := w } :=
      h.advance hkeyed hrecord (by rw [hnext]; exact Nat.le_add_right _ _)
    have hrange : ∀ k ∈ a.numbers, host.world.2.next ≤ k ∧ k < w.2.next := by
      intro k hk
      rw [hnew, List.mem_range'_1] at hk
      rw [hnext]
      exact hk
    constructor
    · exact hkeyed
    · intro b hb
      rcases List.mem_cons.mp hb with rfl | hb
      · refine Tree.enrolled_of_allUnused (by rw [ha]; exact hunused) fun k hk ↦ ?_
        rw [hrecord]
        exact h.blank k (hrange k hk).1
      · exact hothers.trees b hb
    · rw [List.flatMap_cons, List.nodup_append]
      refine ⟨hnew ▸ List.nodup_range', h.different, fun k hk j hj hkj ↦ ?_⟩
      have hold := h.used j hj
      have hlow := (hrange k hk).1
      omega
    · intro k hk
      rcases List.mem_append.mp hk with hk | hk
      · exact (hrange k hk).2
      · exact hothers.used k hk
    · exact hothers.blank
    · exact fun k hk ↦ hothers.closed k fun hmem ↦ hk (List.mem_append_right _ hmem)

variable {made : UInt64 → Tree ο (Nat × σ) → Prop} {who : UInt64 → Prop}
  {s s' : Squad ο (Nat × σ) (ω × Registry)}

/-- No act puts a squad out of order. -/
theorem enrolled_act (h : Enrolled s.runner.agents s.host) (ha : s.Act B.registered made who s') :
    Enrolled s'.runner.agents s'.host := by
  cases ha with
  | serve hs hw request lastThink =>
    rw [hs] at h
    exact ((h.perm List.perm_middle).serve request lastThink).perm List.perm_middle.symm
  | write hs hw f =>
    rw [hs] at h
    exact ((h.perm List.perm_middle).write f).perm List.perm_middle.symm
  | hire hs hw hm hi =>
    rw [hs] at h
    exact (h.hire hi rfl).perm List.perm_middle.symm
  | @refuse id hw t hm owner e host hi =>
    have hkeyed := t.keyed_instantiate B.registered owner h.keyed
    have hattempt := t.attempt_instantiate B.registered owner h.keyed
    rw [hi] at hkeyed hattempt
    cases hattempt with
    | copied => exact h
    | @refused bound n a w q hb ht =>
      have hbind := Node.registered_bindEach B owner t.root.preorder s.host.world
      rw [hb] at hbind
      refine h.advance hkeyed hbind.1 ?_
      show s.host.world.2.next ≤ w.2.next
      rw [hbind.2.1]
      exact Nat.le_add_right _ _
  | leave hs hw hstopped =>
    rw [hs] at h
    exact (h.perm List.perm_middle).leave hstopped

private theorem enrolled_acts (h : Enrolled s.runner.agents s.host)
    (ha : s.Acts B.registered made who s') : Enrolled s'.runner.agents s'.host := by
  induction ha with
  | refl => exact h
  | tail _ hact ih => exact enrolled_act ih hact

private theorem enrolled_start (schedule : Schedule) (world : ω) (fresh : ScopeId) (maxFree : Nat) :
    let s : Squad ο (Nat × σ) (ω × Registry) :=
      start schedule ⟨⟨(world, .blank), fresh⟩, .empty maxFree⟩
    Enrolled s.runner.agents s.host where
  keyed := Pool.keyed_empty maxFree
  trees a ha := by cases ha
  different := List.nodup_nil
  used k hk := by cases hk
  blank k _ := rfl
  closed k _ := balanced_nil

/-- Whatever the only user of a pool was told, at every point the nodes that were handed out are
those of the agents and those that came back. Once it has been given up all came back, and each
leaf that was ever bound had one stop for each start, at the end of each activation. -/
theorem accounted_and_closed (B : Behavior ο σ ω) (schedule : Schedule) (world : ω)
    (fresh : ScopeId) (maxFree : Nat) (orders : List (Order ο (Nat × σ))) :
    let first : Squad ο (Nat × σ) (ω × Registry) :=
      start schedule ⟨⟨(world, .blank), fresh⟩, .empty maxFree⟩
    let s := first.obeyAll B.registered orders
    let last := s.dismiss B.registered
    s.host.pool.handedOut =
        (s.runner.agents.map fun a ↦ a.tree.nodes.length).sum + s.host.pool.takenBack ∧
      last.host.pool.handedOut = last.host.pool.takenBack ∧
      ∀ k, Balanced (last.host.world.2.record k) ∧
        (last.host.world.2.record k).count .stop = (last.host.world.2.record k).count .start := by
  intro first s last
  have hs : s.Accounted := accounted_obeyAll (accounted_start schedule _ maxFree) orders
  have hlast : Enrolled last.runner.agents last.host :=
    enrolled_acts (enrolled_acts (enrolled_start schedule world fresh maxFree)
      (first.acts_obeyAny orders)) s.acts_dismiss
  refine ⟨hs.handedOut, handedOut_dismiss hs, fun k ↦ ?_⟩
  have hk := hlast.closed k List.not_mem_nil
  exact ⟨hk, hk.count_eq⟩

end Squad

end BehaviorTree
