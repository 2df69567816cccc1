import BehaviorTree.Proofs.Pool.Balance
import BehaviorTree.Proofs.Tree.Copy

/-!
# The stock of a pool

The stock of a pool is the number of its free nodes. A hit takes one node from the stock and a
release adds one; nothing else that a tree is made or given back with changes it (`Accounts`). So
the hits can be told from the releases and from the stock before and after.
-/

namespace BehaviorTree

variable {ο σ ω : Type}

namespace Pool

/-! ### The stock -/

private theorem totalFree_eq (p : Pool σ) : p.totalFree = p.sumStacks List.length := by
  rw [totalFree, sumStacks, List.sum_eq_foldl_nat, List.foldl_map]

/-- Another stack for an identifier changes the stock by what the stack changes by. -/
theorem totalFree_withStack (p : Pool σ) (id : NodeId) (ns : List (Node σ)) :
    (p.withStack id ns).totalFree + p.freeCount id = p.totalFree + ns.length := by
  rw [totalFree_eq, totalFree_eq]
  exact sumStacks_withStack rfl p id ns

private theorem totalFree_eq_zero {p : Pool σ} (h : ∀ id, p.freeCount id = 0) :
    p.totalFree = 0 := by
  rw [totalFree_eq, sumStacks, List.sum_eq_zero_iff_forall_eq_nat]
  intro k hk
  obtain ⟨⟨id, ns⟩, hmem, rfl⟩ := List.mem_map.mp hk
  have hid := h id
  rw [freeCount, stack, Std.ExtTreeMap.getD_eq_getD_getElem?,
    Std.ExtTreeMap.mem_toList_iff_getElem?_eq_some.mp hmem] at hid
  exact hid

/-- If there are free nodes of some identifiers only, these make up the stock. -/
theorem totalFree_eq_sum {ids : List NodeId} (hn : ids.Nodup) {p : Pool σ}
    (h : ∀ id ∉ ids, p.freeCount id = 0) : p.totalFree = (ids.map p.freeCount).sum := by
  induction ids generalizing p with
  | nil => exact totalFree_eq_zero fun id ↦ h id List.not_mem_nil
  | cons id rest ih =>
    obtain ⟨hid, hrest⟩ := List.nodup_cons.mp hn
    have hstock := p.totalFree_withStack id []
    have hcount (other : NodeId) : (p.withStack id []).freeCount other =
        if id = other then 0 else p.freeCount other := freeCount_withStack p id other []
    have hothers : rest.map (p.withStack id []).freeCount = rest.map p.freeCount := by
      refine List.map_congr_left fun other hother ↦ ?_
      have hne : id ≠ other := fun heq ↦ hid (heq ▸ hother)
      rw [hcount, if_neg hne]
    rw [ih hrest (p := p.withStack id []), hothers, List.length_nil] at hstock
    · rw [List.map_cons, List.sum_cons]
      omega
    · intro other hother
      rw [hcount]
      split
      · rfl
      · next hne =>
        apply h
        simp [Ne.symm hne, hother]

/-- As many free nodes of each of some identifiers, and no others, make up the stock. -/
theorem totalFree_of_uniform {ids : List NodeId} (hn : ids.Nodup) {p : Pool σ} {count : Nat}
    (h : ∀ id, p.freeCount id = if id ∈ ids then count else 0) :
    p.totalFree = ids.length * count := by
  have hcounts : ids.map p.freeCount = List.replicate ids.length count := by
    rw [List.eq_replicate_iff]
    refine ⟨List.length_map _, fun k hk ↦ ?_⟩
    obtain ⟨id, hid, rfl⟩ := List.mem_map.mp hk
    rw [h, if_pos hid]
  rw [totalFree_eq_sum hn fun id hid ↦ by rw [h, if_neg hid], hcounts, List.sum_replicate_nat]

/-! ### Hits and releases -/

/-- Whether the stock of a pool has changed by the releases and the hits. -/
def Accounts (p q : Pool σ) : Prop :=
  q.totalFree + q.stats.hits + p.stats.released = p.totalFree + p.stats.hits + q.stats.released

variable {p q r : Pool σ}

/-- A pool that stays as it is accounts for itself. -/
theorem Accounts.refl (p : Pool σ) : p.Accounts p := rfl

/-- Changes by releases and hits add up. -/
theorem Accounts.trans (h : p.Accounts q) (h' : q.Accounts r) : p.Accounts r := by
  unfold Accounts at *
  omega

/-- A pool with all nodes in their places counts as a hit what it takes from a stack. -/
theorem accounts_acquire (hp : p.Keyed) (model : Node σ) : p.Accounts (p.acquire model).2 := by
  unfold acquire
  cases hs : p.stack model.id with
  | nil => rfl
  | cons n rest =>
    have hid : n.id = model.id := hp model.id n (by rw [hs]; exact List.mem_cons_self)
    have hstock := p.totalFree_withStack model.id rest
    rw [freeCount, hs, List.length_cons] at hstock
    simp only [hid, if_true]
    show (p.withStack model.id rest).totalFree + (p.stats.hits + 1) + p.stats.released =
      p.totalFree + p.stats.hits + p.stats.released
    omega

private theorem accounts_put (p : Pool σ) (n : Node σ) : p.Accounts (p.put n) := by
  unfold put
  split
  · have hstock := p.totalFree_withStack n.id (n.scrubbed :: p.stack n.id)
    rw [List.length_cons] at hstock
    show (p.withStack n.id (n.scrubbed :: p.stack n.id)).totalFree + p.stats.hits +
      p.stats.released = p.totalFree + p.stats.hits + (p.stats.released + 1)
    rw [freeCount] at hstock
    omega
  · rfl

private theorem hits_put (p : Pool σ) (n : Node σ) : (p.put n).stats.hits = p.stats.hits := by
  unfold put
  split <;> rfl

/-- Taking back a subtree adds to the stock what it releases, and is no hit. -/
theorem accounts_release (p : Pool σ) (n : Node σ) :
    p.Accounts (p.release n) ∧ (p.release n).stats.hits = p.stats.hits := by
  unfold release
  generalize returnOrder n = ns
  induction ns generalizing p with
  | nil => exact ⟨.refl p, rfl⟩
  | cons n rest ih =>
    obtain ⟨haccounts, hhits⟩ := ih (p.put n)
    exact ⟨(p.accounts_put n).trans haccounts, hhits.trans (p.hits_put n)⟩

/-! ### Stocking up -/

/-- Whether a pool was stocked up to a number of copies for each of some identifiers, as far as its
bound allows. -/
structure Stocked (copies : Nat) (p q : Pool σ) (ids : List NodeId) : Prop where
  maxFree : q.maxFree = p.maxFree
  freeCount : ∀ id, q.freeCount id =
    if id ∈ ids then max (p.freeCount id) (min copies p.maxFree) else p.freeCount id
  stats : q.stats = p.stats

private theorem Stocked.nil (copies : Nat) (p : Pool σ) : Stocked copies p p [] := by
  refine ⟨rfl, fun id ↦ ?_, rfl⟩
  rw [if_neg List.not_mem_nil]

private theorem Stocked.append {copies : Nat} {ids ids' : List NodeId} (h : Stocked copies p q ids)
    (h' : Stocked copies q r ids') : Stocked copies p r (ids ++ ids') := by
  refine ⟨h'.maxFree.trans h.maxFree, fun id ↦ ?_, h'.stats.trans h.stats⟩
  rw [h'.freeCount, h.freeCount, h.maxFree]
  by_cases hid : id ∈ ids
  · simp [hid]
  · simp [hid]

private theorem stocked_fill (p : Pool σ) (copies : Nat) (model : Node σ) :
    Stocked copies p (p.fill copies model) [model.id] := by
  refine ⟨rfl, fun id ↦ ?_, rfl⟩
  show (p.withStack _ _).freeCount id = _
  rw [freeCount_withStack]
  by_cases hid : model.id = id
  · subst hid
    rw [if_pos rfl, if_pos (List.mem_singleton_self _), List.length_append, List.length_replicate]
    show _ + p.freeCount model.id = _
    omega
  · rw [if_neg hid, if_neg]
    exact fun hmem ↦ hid (List.mem_singleton.mp hmem).symm

/-- A pool can be stocked up for all nodes of a subtree. -/
theorem stocked_prewarm (p : Pool σ) (root : Node σ) (copies : Nat) :
    Stocked copies p (p.prewarm root copies) root.ids := by
  have hfold (ns : List (Node σ)) (p : Pool σ) :
      Stocked copies p (ns.foldl (fill · copies) p) (ns.map Node.id) := by
    induction ns generalizing p with
    | nil => exact .nil copies p
    | cons n rest ih => exact (p.stocked_fill copies n).append (ih (p.fill copies n))
  unfold prewarm
  rw [Walk.toList_start]
  exact hfold root.preorder p

/-! ### A full cycle -/

private theorem count_copies {ids : List NodeId} (hn : ids.Nodup) (copies : Nat) (id : NodeId) :
    (List.replicate copies ids).flatten.count id = if id ∈ ids then copies else 0 := by
  rw [List.count_flatten, List.map_replicate, List.sum_replicate_nat, hn.count]
  split <;> omega

/-- A pool is stocked up for some copies of a tree, hands out their nodes, and takes them all back.
Then it has served as many copies from its stacks as its bound allows, and kept as many. -/
theorem stats_of_cycle {ids : List NodeId} (hn : ids.Nodup) {copies maxFree : Nat}
    (hp : Stocked copies (empty maxFree) p ids)
    (hq : p.Drawn q (List.replicate copies ids).flatten) (hpq : p.Accounts q)
    (hr : q.Refilled r (List.replicate copies ids).flatten) (hqr : q.Accounts r)
    (hhits : r.stats.hits = q.stats.hits) :
    let served := ids.length * min copies maxFree
    let missed := ids.length * (copies - min copies maxFree)
    r.stats = ⟨served, missed, served, missed⟩ := by
  intro served missed
  have hlength : (List.replicate copies ids).flatten.length = served + missed := by
    rw [List.length_flatten, List.map_replicate, List.sum_replicate_nat, ← Nat.mul_add,
      Nat.mul_comm]
    congr 1
    omega
  have hstock : p.totalFree = served := by
    refine totalFree_of_uniform hn fun id ↦ ?_
    rw [hp.freeCount, freeCount_empty]
    show (if id ∈ ids then max 0 (min copies maxFree) else 0) = _
    rw [Nat.zero_max]
  have hempty : q.totalFree = 0 := by
    refine totalFree_eq_zero fun id ↦ ?_
    rw [hq.freeCount, hp.freeCount, freeCount_empty, count_copies hn]
    show (if id ∈ ids then max 0 (min copies maxFree) else 0) - _ = 0
    split <;> omega
  have hback : r.totalFree = served := by
    refine totalFree_of_uniform hn fun id ↦ ?_
    rw [hr.freeCount, hq.maxFree, hp.maxFree, hq.freeCount, hp.freeCount, freeCount_empty,
      count_copies hn]
    show max ((if id ∈ ids then max 0 (min copies maxFree) else 0) - _) (min maxFree _) = _
    split <;> omega
  have hstats : p.stats = ⟨0, 0, 0, 0⟩ := hp.stats
  have hout := hq.handedOut
  have hin := hq.takenBack
  have hout' := hr.handedOut
  have hin' := hr.takenBack
  simp only [handedOut, takenBack, Accounts, hstats, hlength] at hout hin hout' hin' hpq hqr
  have hserved : r.stats.hits = served := by omega
  have hmissed : r.stats.misses = missed := by omega
  have hkept : r.stats.released = served := by omega
  have hdropped : r.stats.dropped = missed := by omega
  calc r.stats
    _ = ⟨r.stats.hits, r.stats.misses, r.stats.released, r.stats.dropped⟩ := rfl
    _ = _ := by rw [hserved, hmissed, hkept, hdropped]

end Pool

/-! ### Making trees -/

/-- Copying a subtree from a pool with all nodes in their places keeps the pool's accounts. -/
theorem Node.accounts_copy {B : Behavior ο σ ω} {owner : ο} {p : Pool σ} (hp : p.Keyed)
    (n : Node σ) (w : ω) : p.Accounts (n.copy B owner p w).2.1 := by
  let q := (n.copy B owner p w).2.1
  have hkept : q.Keyed ∧ p.Accounts q := copy_keeps (P := fun q ↦ q.Keyed ∧ p.Accounts q)
    (fun q model h ↦
      ⟨((q.supplied_acquire model).keyed h.1).2, h.2.trans (Pool.accounts_acquire h.1 model)⟩)
    (fun q m h ↦ ⟨h.1.release m, h.2.trans (q.accounts_release m).1⟩) ⟨hp, .refl p⟩ n w
  exact hkept.2

/-- Instantiating changes the stock by the releases and the hits. -/
theorem Tree.accounts_instantiate {B : Behavior ο σ ω} {owner : ο} {host : Host σ ω}
    (hp : host.pool.Keyed) (t : Tree ο σ) :
    host.pool.Accounts (t.instantiate B owner host).2.pool := by
  unfold instantiate
  split
  · exact .refl _
  · exact Node.accounts_copy hp t.root host.world

end BehaviorTree
