import BehaviorTree.Proofs.Leaf.Waiting
import BehaviorTree.Proofs.Pool.Stock
import BehaviorTree.Proofs.Pool.Tally
import BehaviorTree.Proofs.Tree.Binding
import BehaviorTree.Proofs.Tree.Prototype
import Mathlib.Algebra.BigOperators.Finprod

/-!
# Pools refine tallies

Whatever a pool is used for, its free counts and statistics are those of a tally that goes through
the same uses and never sees a node. The simulation relation `Shows` says so of one pool and one
tally; beside the numbers it keeps that every stack is within the bound and holds no node of another
identifier, which is why no use can fail in between.
-/

namespace BehaviorTree

variable {ο σ ω : Type}

instance : Finite NodeId :=
  Finite.of_injective (fun id ↦ id.bits.toFin) fun a b h ↦ by
    cases a
    cases b
    exact congrArg NodeId.mk (BitVec.toFin_inj.mp h)

namespace Node

variable {B : Behavior ο σ ω} {owner : ο}

/-- What is left of a pool that hands out a node for each of several models. -/
def drain (p : Pool σ) (models : List (Node σ)) : Pool σ :=
  models.foldl (fun p model ↦ (p.acquire model).2) p

private theorem drain_copies {ns : List (Node σ)}
    (ih : ∀ n ∈ ns, ∀ {p q : Pool σ} {w w' : ω} {c : Node σ},
      n.copy B owner p w = (.ok c, q, w') → q = drain p n.preorder)
    {p : Pool σ} {w : ω} (h : (copies B owner ns p w).failure = none) :
    (copies B owner ns p w).pool = drain p (preorders ns) := by
  induction ns generalizing p w with
  | nil => rfl
  | cons n rest rest_ih =>
    simp only [copies] at h ⊢
    cases hn : n.copy B owner p w with
    | mk r x =>
      obtain ⟨q, v⟩ := x
      cases r with
      | error e =>
        rw [hn] at h
        cases h
      | ok c =>
        simp only [hn] at h ⊢
        rw [rest_ih (fun k hk ↦ ih k (List.mem_cons_of_mem _ hk)) h, ih n List.mem_cons_self hn,
          preorders, drain, drain, drain, List.foldl_append]

/-- A copy that was made has taken one node from the pool for each node of its model, and has given
none back. -/
theorem drain_copy {n c : Node σ} {p q : Pool σ} {w w' : ω}
    (h : n.copy B owner p w = (.ok c, q, w')) : q = drain p n.preorder := by
  induction n using child_induction generalizing p q w w' c with
  | step n ih =>
    rw [copy_eq, copyWith, acquireAwake] at h
    rw [preorder_eq, drain, List.foldl_cons]
    cases ha : p.acquire n with
    | mk r q' =>
      rw [ha] at h
      cases r with
      | error e => cases h
      | ok m =>
        cases hb : m.awake B owner w with
        | mk r' v =>
          cases r' with
          | error e =>
            simp only [hb] at h
            cases h
          | ok m' =>
            simp only [hb, adopt] at h
            split at h
            · next hf =>
              cases h
              exact drain_copies (fun k hk _ _ _ _ _ hc ↦ ih k hk hc) hf
            · cases h

end Node

namespace Pool

/-- The stock is made up of the free nodes of all identifiers. -/
theorem totalFree_eq_finsum (p : Pool σ) : p.totalFree = ∑ᶠ id, p.freeCount id := by
  have hsupport := Set.toFinite (Function.support p.freeCount)
  have hcover : ∀ id ∉ hsupport.toFinset.toList, p.freeCount id = 0 := by
    intro id hid
    simpa using hid
  rw [totalFree_eq_sum (Finset.nodup_toList _) hcover, Finset.sum_map_toList,
    finsum_eq_sum_of_support_subset _ hsupport.coe_toFinset.ge]

/-- Where stacks have grown, the stock has grown by as much. -/
theorem totalFree_of_gain {p q : Pool σ} {ids : Finset NodeId} {gain : NodeId → Nat}
    (h : ∀ id, q.freeCount id = p.freeCount id + if id ∈ ids then gain id else 0) :
    q.totalFree = p.totalFree + ∑ id ∈ ids, gain id := by
  have hgain : ∑ᶠ id, (if id ∈ ids then gain id else 0) = ∑ id ∈ ids, gain id := by
    rw [finsum_eq_sum_of_support_subset (s := ids) _ fun id hid ↦ by
      by_contra hmem
      simp [Finset.mem_coe.not.mp hmem] at hid]
    exact Finset.sum_congr rfl fun id hid ↦ if_pos hid
  rw [totalFree_eq_finsum, totalFree_eq_finsum, finsum_congr h,
    finsum_add_distrib (Set.toFinite _) (Set.toFinite _), hgain]

/-! ### Single uses -/

/-- Whether a tally shows what a pool with a bound is like. -/
structure Shows (maxFree : Nat) (p : Pool σ) (t : Tally) : Prop where
  maxFree : p.maxFree = maxFree
  free : ∀ id, p.freeCount id = t.free id
  stats : p.stats = t.stats
  bounded : p.Bounded
  keyed : p.Keyed

variable {maxFree : Nat} {p q : Pool σ} {t : Tally}

private theorem shows_empty (maxFree : Nat) : Shows maxFree (empty maxFree : Pool σ) .zero :=
  ⟨rfl, freeCount_empty maxFree, rfl, bounded_empty maxFree, keyed_empty maxFree⟩

private theorem Shows.acquire (h : Shows maxFree p t) (model : Node σ) :
    Shows maxFree (p.acquire model).2 (t.acquire model.id) := by
  have hdrawn := drawn_acquire h.keyed model
  have hfree := h.free model.id
  refine ⟨hdrawn.maxFree.trans h.maxFree, fun id ↦ ?_, ?_, hdrawn.bounded h.bounded,
    ((p.supplied_acquire model).keyed h.keyed).2⟩
  · rw [hdrawn.freeCount, h.free, List.count_singleton, Tally.free_acquire]
    simp only [beq_iff_eq, @eq_comm _ id]
  · rw [Tally.stats_acquire, ← hfree, ← h.stats, Pool.acquire, freeCount]
    cases hs : p.stack model.id with
    | nil => rfl
    | cons n rest =>
      have hid : n.id = model.id := h.keyed model.id n (by rw [hs]; exact List.mem_cons_self)
      simp only [hid, if_true, List.length_cons, Nat.zero_lt_succ]
      rfl

private theorem Shows.drain (h : Shows maxFree p t) (models : List (Node σ)) :
    Shows maxFree (Node.drain p models) ((models.map Node.id).foldl Tally.acquire t) := by
  induction models generalizing p t with
  | nil => exact h
  | cons model rest ih => exact ih (h.acquire model)

/-- What comes back is counted together: the stock tells how many nodes were kept. -/
theorem Shows.release (h : Shows maxFree p t) (n : Node σ) :
    Shows maxFree (p.release n) (t.release maxFree n.ids) := by
  have hrefilled := p.refilled_release n
  obtain ⟨haccounts, hhits⟩ := p.accounts_release n
  have hfree (id : NodeId) : (p.release n).freeCount id =
      min maxFree (t.free id + n.ids.count id) := by
    have hbound := h.bounded id
    rw [hrefilled.freeCount, h.maxFree, h.free]
    rw [h.maxFree, h.free] at hbound
    omega
  have hgain (id : NodeId) : (p.release n).freeCount id =
      p.freeCount id + if id ∈ n.ids.toFinset then t.kept maxFree n.ids id else 0 := by
    have hbound := h.bounded id
    rw [h.maxFree, h.free] at hbound
    rw [hfree, h.free, Tally.kept]
    split
    · omega
    · next hid =>
      rw [List.count_eq_zero.mpr fun hmem ↦ hid (List.mem_toFinset.mpr hmem)]
      omega
  have hkept := totalFree_of_gain hgain
  have hall : ∑ id ∈ n.ids.toFinset, t.kept maxFree n.ids id +
      ∑ id ∈ n.ids.toFinset, (n.ids.count id - t.kept maxFree n.ids id) = n.ids.length := by
    rw [← Finset.sum_add_distrib, ← Multiset.coe_card, ← Multiset.toFinset_sum_count_eq]
    refine Finset.sum_congr rfl fun id _ ↦ ?_
    rw [Multiset.coe_count, Tally.kept]
    omega
  have hout := hrefilled.handedOut
  have hin := hrefilled.takenBack
  refine ⟨hrefilled.maxFree.trans h.maxFree, hfree, ?_, hrefilled.bounded h.bounded,
    h.keyed.release n⟩
  simp only [Tally.release, ← h.stats]
  unfold Accounts at haccounts
  unfold handedOut at hout
  unfold takenBack at hin
  generalize (p.release n).stats = stats at *
  obtain ⟨hits, misses, released, dropped⟩ := stats
  simp only [PoolStats.mk.injEq] at *
  omega

private theorem Shows.prewarm (h : Shows maxFree p t) (root : Node σ) (copies : Nat) :
    Shows maxFree (p.prewarm root copies) (t.prewarm maxFree root.ids copies) := by
  have hstocked := p.stocked_prewarm root copies
  refine ⟨hstocked.maxFree.trans h.maxFree, fun id ↦ ?_, hstocked.stats.trans h.stats,
    h.bounded.prewarm root copies, h.keyed.prewarm root copies⟩
  rw [hstocked.freeCount, h.free, h.maxFree]
  rfl

private theorem Shows.clear (h : Shows maxFree p t) : Shows maxFree p.clear t.clear :=
  ⟨h.maxFree, freeCount_empty p.maxFree, h.stats, .clear p, .clear p⟩

/-! ### Uses in order -/

/-- Which uses a pool can be put to, and what it is afterwards. A tree counts as instantiated only
if there is an instance. -/
inductive Used (B : Behavior ο σ ω) : Pool σ → Use → Pool σ → Prop where
  | acquire (p : Pool σ) (model : Node σ) : Used B p (.acquire model.id) (p.acquire model).2
  | release (p : Pool σ) (n : Node σ) : Used B p (.release n.ids) (p.release n)
  | prewarm (p : Pool σ) (tree : Tree ο σ) (copies : Nat) :
    Used B p (.prewarm tree.root.ids copies) (p.prewarm tree.root copies)
  | clear (p : Pool σ) : Used B p .clear p.clear
  | instantiate {tree made : Tree ο σ} {owner : ο} {host host' : Host σ ω}
    (success : tree.instantiate B owner host = (.ok made, host')) :
    Used B host.pool (.instantiate tree.root.ids) host'.pool
  | releaseTree (p : Pool σ) (tree : Tree ο σ) :
    Used B p (.release tree.root.ids) (tree.release p)

/-- Whether a pool is what uses in order make of another one. -/
inductive UsedAll (B : Behavior ο σ ω) : Pool σ → List Use → Pool σ → Prop where
  | nil (p : Pool σ) : UsedAll B p [] p
  | cons {p q r : Pool σ} {use : Use} {rest : List Use} (first : Used B p use q)
    (later : UsedAll B q rest r) : UsedAll B p (use :: rest) r

variable {B : Behavior ο σ ω}

/-- A tally goes on to show a pool through any use of it. -/
theorem Shows.used {use : Use} (h : Shows maxFree p t) (hu : Used B p use q) :
    Shows maxFree q (t.perform maxFree use) := by
  cases hu with
  | acquire p model => exact h.acquire model
  | release p n => exact h.release n
  | prewarm p tree copies => exact h.prewarm tree.root copies
  | clear p => exact h.clear
  | releaseTree p tree => exact h.release tree.root
  | @instantiate tree _ owner host host' hmade =>
    unfold Tree.instantiate at hmade
    split at hmade
    · cases hmade
    · cases hc : tree.root.copy B owner host.pool host.world with
      | mk r x =>
        rw [hc] at hmade
        cases r with
        | error e => cases hmade
        | ok c =>
          cases hmade
          rw [Node.drain_copy hc]
          exact h.drain tree.root.preorder

private theorem Shows.usedAll {uses : List Use} (h : Shows maxFree p t) (hu : UsedAll B p uses q) :
    Shows maxFree q (uses.foldl (Tally.perform maxFree) t) := by
  induction hu generalizing t with
  | nil => exact h
  | cons hfirst _ ih => exact ih (h.used hfirst)

/-- Free counts, stock and statistics of a pool are those of the tally that went through the same
uses. So no stack exceeds the bound, and a pool that was just stocked up for a prototype serves that
many instances without a miss, as far as the bound allows. -/
theorem refines_tally (B : Behavior ο σ ω) {maxFree : Nat} {uses : List Use} {p : Pool σ}
    (h : UsedAll B (empty maxFree) uses p) :
    let t := uses.foldl (Tally.perform maxFree) .zero
    (∀ id, p.freeCount id = t.free id) ∧ p.totalFree = ∑ᶠ id, t.free id ∧ p.stats = t.stats ∧
      (∀ id, p.freeCount id ≤ maxFree) ∧
      ∀ (tree : Tree ο σ) (copies count : Nat) (q : Pool σ), tree.IsPrototype B →
        count ≤ min copies maxFree →
        UsedAll B (p.prewarm tree.root copies)
          (List.replicate count (.instantiate tree.root.ids)) q →
        q.stats.misses = p.stats.misses := by
  intro t
  have hshows : Shows maxFree p t := (shows_empty maxFree).usedAll h
  refine ⟨hshows.free, ?_, hshows.stats, fun id ↦ ?_, fun tree copies count q htree hcount hq ↦ ?_⟩
  · rw [totalFree_eq_finsum]
    exact finsum_congr hshows.free
  · rw [← hshows.maxFree]
    exact hshows.bounded id
  · have hwarm := hshows.prewarm tree.root copies
    have hfree : ∀ id ∈ tree.root.ids,
        count ≤ (t.prewarm maxFree tree.root.ids copies).free id := by
      intro id hid
      simp only [Tally.prewarm, if_pos hid]
      omega
    rw [(hwarm.usedAll hq).stats, Tally.instantiate_of_free htree.kept.1 hfree, ← hwarm.stats]
    exact congrArg PoolStats.misses (p.stocked_prewarm tree.root copies).stats

/-- A pool that keeps two nodes of each identifier is stocked up for a wait in a scope, hands out
one copy of it, takes back two and hands out one node more. -/
theorem refines_tally_pause :
    let ids := Wait.pause.root.ids
    let uses := [.prewarm ids 3, .instantiate ids, .release ids, .release ids, .acquire (.ofNat 1)]
    let B : Behavior Owner (String × Wait) (World × List (HookEvent String)) :=
      Wait.behavior.traced
    ∃ p : Pool (String × Wait), UsedAll B (empty 2) uses p ∧
      p.freeCount (.ofNat 0) = 2 ∧ p.freeCount (.ofNat 1) = 1 ∧ p.stats = ⟨3, 0, 2, 2⟩ := by
  intro ids uses B
  let host : Host (String × Wait) (World × List (HookEvent String)) :=
    ⟨⟨(.initial, []), ⟨0⟩⟩, (empty 2).prewarm Wait.pause.root 3⟩
  let owner : Owner := ⟨0, .unit⟩
  have hkeyed : host.pool.Keyed := (keyed_empty 2).prewarm Wait.pause.root 3
  have hbound : Node.bindEach B owner Wait.pause.root.preorder host.world = ⟨_, none, _⟩ := rfl
  obtain ⟨root, q, hmade, -⟩ := Tree.instantiate_of_bound (t := Wait.pause) rfl hkeyed hbound
  have hused : UsedAll B (empty 2) uses _ :=
    .cons (.prewarm _ Wait.pause 3) <| .cons (.instantiate hmade) <|
      .cons (.releaseTree _ Wait.pause) <| .cons (.release _ Wait.pause.root) <|
      .cons (.acquire _ (.newLeaf (.plain (.ofNat 1) "wait") ("wait", Wait.ofSeconds 1))) <| .nil _
  obtain ⟨hfree, -, hstats, -⟩ := refines_tally B hused
  refine ⟨_, hused, (hfree _).trans ?_, (hfree _).trans ?_, hstats.trans ?_⟩
  · decide
  · decide
  · decide

end Pool

end BehaviorTree
