import BehaviorTree.Proofs.Runner.Acts
import BehaviorTree.Proofs.Tree.Binding
import BehaviorTree.Proofs.Tree.Prototype

/-!
# The ledger of a squad

If nobody else uses the pool of a squad, each node that the pool handed out is in the tree of an
agent, or it came back. No act loses a node or hands one back twice (`accounted_act`), so this holds
after any orders (`accounted_obeyAll`).
-/

namespace BehaviorTree

variable {ο σ ω : Type}

/-- A tree has as many nodes as there are identifiers below its root. -/
theorem Tree.length_nodes (t : Tree ο σ) : t.nodes.length = t.root.ids.length := by
  rw [nodes, Walk.toList_start, Node.ids, List.length_map]

namespace Squad

/-- The number of nodes in the trees of the agents. -/
def nodeCount (s : Squad ο σ ω) : Nat := (s.runner.agents.map fun a ↦ a.tree.nodes.length).sum

/-- Whether the nodes that the pool handed out are those of the agents and those that came back. -/
structure Accounted (s : Squad ο σ ω) : Prop where
  keyed : s.host.pool.Keyed
  handedOut : s.host.pool.handedOut = s.nodeCount + s.host.pool.takenBack

variable {B : Behavior ο σ ω} {made : UInt64 → Tree ο σ → Prop} {who : UInt64 → Prop}
  {s s' : Squad ο σ ω}

/-- A squad without agents accounts for all nodes. -/
theorem accounted_start (schedule : Schedule) (outside : Outside ω) (maxFree : Nat) :
    (start schedule ⟨outside, .empty maxFree⟩ : Squad ο σ ω).Accounted :=
  ⟨Pool.keyed_empty maxFree, rfl⟩

/-- No act loses a node, and none hands one back twice. -/
theorem accounted_act (h : s.Accounted) (ha : s.Act B made who s') : s'.Accounted := by
  have hledger := h.handedOut
  cases ha with
  | @serve before after a hs hw request lastThink =>
    have hids : (a.serve B request lastThink s.host.toOutside).1.tree.nodes.length =
        a.tree.nodes.length := by
      rw [Tree.length_nodes, Tree.length_nodes]
      exact congrArg List.length (a.tree.serve_kept (B := B) request _).1
    constructor
    · exact h.keyed
    · rw [nodeCount, hs] at hledger
      simp only [nodeCount, withAgents, List.map_append, List.map_cons, hids] at hledger ⊢
      exact hledger
  | @write before after a hs hw f =>
    constructor
    · exact h.keyed
    · rw [nodeCount, hs] at hledger
      simp only [nodeCount, withAgents, List.map_append, List.map_cons] at hledger ⊢
      exact hledger
  | @hire before after hs id hw t hm owner tree host hi =>
    have hkeyed := t.keyed_instantiate B owner h.keyed
    obtain ⟨asked, ht⟩ := t.traded_instantiate B owner h.keyed
    rw [hi] at hkeyed ht
    have hout : host.pool.handedOut = s.host.pool.handedOut + asked.length := ht.handedOut
    have hback : host.pool.takenBack + tree.root.ids.length =
      s.host.pool.takenBack + asked.length := ht.takenBack
    constructor
    · exact hkeyed
    · rw [nodeCount, hs] at hledger
      simp only [nodeCount, withAgents, List.map_append, List.map_cons, List.sum_append,
        List.sum_cons] at hledger ⊢
      rw [tree.length_nodes]
      omega
  | @refuse id hw t hm owner e host hi =>
    have hkeyed := t.keyed_instantiate B owner h.keyed
    obtain ⟨asked, ht⟩ := t.traded_instantiate B owner h.keyed
    rw [hi] at hkeyed ht
    have hout : host.pool.handedOut = s.host.pool.handedOut + asked.length := ht.handedOut
    have hback : host.pool.takenBack + 0 = s.host.pool.takenBack + asked.length := ht.takenBack
    constructor
    · exact hkeyed
    · simp only [nodeCount, withAgents] at hledger ⊢
      omega
  | @leave before after a hs hw hstopped =>
    have hr := s.host.pool.refilled_release a.tree.root
    have hout := hr.handedOut
    have hback := hr.takenBack
    constructor
    · exact h.keyed.release a.tree.root
    · rw [nodeCount, hs] at hledger
      simp only [nodeCount, withAgents, List.map_append, List.map_cons, List.sum_append,
        List.sum_cons, Tree.length_nodes a.tree] at hledger ⊢
      show (s.host.pool.release a.tree.root).handedOut =
        _ + (s.host.pool.release a.tree.root).takenBack
      omega

private theorem accounted_acts (h : s.Accounted) (ha : s.Acts B made who s') : s'.Accounted := by
  induction ha with
  | refl => exact h
  | tail _ hact ih => exact accounted_act ih hact

/-- Orders keep the ledger. -/
theorem accounted_obeyAll (h : s.Accounted) (orders : List (Order ο σ)) :
    (s.obeyAll B orders).Accounted :=
  accounted_acts h (s.acts_obeyAny orders)

/-- Giving up the runner closes the ledger: everything came back. -/
theorem handedOut_dismiss (h : s.Accounted) :
    (s.dismiss B).host.pool.handedOut = (s.dismiss B).host.pool.takenBack := by
  have hledger := (accounted_acts h (acts_dismiss (B := B) s)).handedOut
  rw [hledger]
  exact Nat.zero_add _

end Squad

end BehaviorTree
