import BehaviorTree.Proofs.Pool.Supply
import Mathlib.Data.List.Nodup

/-!
# The balance of a pool

Each node that a pool hands out is counted once and shortens one stack, and each node that it takes
back is counted once and lengthens one stack, unless that stack is full. So a pool that takes back
everything that it handed out has its stacks as they were, except that one node more may lie in a
stack that was empty (`Traded.freeCount_of_nodup`).
-/

namespace BehaviorTree

variable {σ : Type}

namespace Pool

/-- How many nodes the pool has handed out. -/
def handedOut (p : Pool σ) : Nat := p.stats.hits + p.stats.misses

/-- How many nodes the pool has taken back. -/
def takenBack (p : Pool σ) : Nat := p.stats.released + p.stats.dropped

/-- Another stack changes the free count of its identifier only. -/
theorem freeCount_withStack (p : Pool σ) (id other : NodeId) (ns : List (Node σ)) :
    (p.withStack id ns).freeCount other = if id = other then ns.length else p.freeCount other := by
  rw [freeCount, stack_withStack]
  split <;> rfl

/-- An empty pool has nothing free. -/
@[simp] theorem freeCount_empty (maxFree : Nat) (id : NodeId) :
    (empty maxFree : Pool σ).freeCount id = 0 := by
  simp [freeCount, stack, empty]

/-! ### Handing out -/

/-- Whether a pool handed out one node for each of some identifiers, and did nothing else. -/
structure Drawn (p q : Pool σ) (ids : List NodeId) : Prop where
  maxFree : q.maxFree = p.maxFree
  freeCount : ∀ id, q.freeCount id = p.freeCount id - ids.count id
  handedOut : q.handedOut = p.handedOut + ids.length
  takenBack : q.takenBack = p.takenBack

/-- A pool that hands out nothing stays as it is. -/
theorem Drawn.nil (p : Pool σ) : p.Drawn p [] := ⟨rfl, fun _ ↦ rfl, rfl, rfl⟩

/-- A pool that hands out twice hands out all of it. -/
theorem Drawn.append {p q r : Pool σ} {ids ids' : List NodeId} (h : p.Drawn q ids)
    (h' : q.Drawn r ids') : p.Drawn r (ids ++ ids') := by
  constructor
  · rw [h'.maxFree, h.maxFree]
  · intro id
    rw [h'.freeCount, h.freeCount, List.count_append]
    omega
  · rw [h'.handedOut, h.handedOut, List.length_append]
    omega
  · rw [h'.takenBack, h.takenBack]

/-- A pool with all nodes in their places hands out a shell, and counts it. -/
theorem drawn_acquire {p : Pool σ} (hp : p.Keyed) (model : Node σ) :
    p.Drawn (p.acquire model).2 [model.id] := by
  have hmiss (hs : p.stack model.id = []) : p.freeCount model.id = 0 := by
    rw [freeCount, hs]
    rfl
  unfold acquire
  cases hs : p.stack model.id with
  | nil =>
    constructor
    · rfl
    · intro id
      by_cases hid : model.id = id
      · subst hid
        show p.freeCount model.id = _
        rw [hmiss hs, Nat.zero_sub]
      · rw [List.count_singleton, beq_false_of_ne hid]
        rfl
    · show p.stats.hits + (p.stats.misses + 1) = _
      rw [Pool.handedOut, List.length_singleton]
      omega
    · rfl
  | cons n rest =>
    have hid : n.id = model.id := hp model.id n (by rw [hs]; exact List.mem_cons_self)
    simp only [hid, if_true]
    constructor
    · rfl
    · intro id
      show (p.withStack model.id rest).freeCount id = _
      rw [freeCount_withStack]
      by_cases hid : model.id = id
      · subst hid
        simp [freeCount, hs]
      · simp [hid]
    · show p.stats.hits + 1 + p.stats.misses = _
      rw [Pool.handedOut, List.length_singleton]
      omega
    · rfl

/-! ### Taking back -/

/-- Whether a pool took back one node for each of some identifiers, and did nothing else. A stack
grows by the nodes that come back, but not beyond the bound. -/
structure Refilled (p q : Pool σ) (ids : List NodeId) : Prop where
  maxFree : q.maxFree = p.maxFree
  freeCount : ∀ id,
    q.freeCount id = max (p.freeCount id) (min p.maxFree (p.freeCount id + ids.count id))
  handedOut : q.handedOut = p.handedOut
  takenBack : q.takenBack = p.takenBack + ids.length

/-- A pool that takes back nothing stays as it is. -/
theorem Refilled.nil (p : Pool σ) : p.Refilled p [] := by
  refine ⟨rfl, fun id ↦ ?_, rfl, rfl⟩
  rw [List.count_nil]
  omega

/-- A pool that takes back twice takes back all of it. -/
theorem Refilled.append {p q r : Pool σ} {ids ids' : List NodeId} (h : p.Refilled q ids)
    (h' : q.Refilled r ids') : p.Refilled r (ids ++ ids') := by
  constructor
  · rw [h'.maxFree, h.maxFree]
  · intro id
    rw [h'.freeCount, h.freeCount, h.maxFree, List.count_append]
    omega
  · rw [h'.handedOut, h.handedOut]
  · rw [h'.takenBack, h.takenBack, List.length_append]
    omega

private theorem Refilled.perm {p q : Pool σ} {ids ids' : List NodeId} (h : p.Refilled q ids)
    (hp : ids.Perm ids') : p.Refilled q ids' := by
  constructor
  · exact h.maxFree
  · intro id
    rw [h.freeCount, hp.count_eq]
  · exact h.handedOut
  · rw [h.takenBack, hp.length_eq]

private theorem refilled_put (p : Pool σ) (n : Node σ) : p.Refilled (p.put n) [n.id] := by
  unfold put
  split
  · next hfree =>
    constructor
    · rfl
    · intro id
      show (p.withStack n.id (n.scrubbed :: p.stack n.id)).freeCount id = _
      rw [freeCount_withStack, List.count_singleton]
      by_cases hid : n.id = id
      · subst hid
        simp only [if_true, List.length_cons, beq_self_eq_true]
        show p.freeCount n.id + 1 = _
        omega
      · rw [if_neg hid, beq_false_of_ne hid]
        simp only [Bool.false_eq_true, if_false]
        omega
    · rfl
    · show p.stats.released + 1 + p.stats.dropped = _
      rw [Pool.takenBack, List.length_singleton]
      omega
  · next hfull =>
    constructor
    · rfl
    · intro id
      show p.freeCount id = _
      rw [List.count_singleton]
      by_cases hid : n.id = id
      · subst hid
        simp only [beq_self_eq_true, if_true]
        omega
      · rw [beq_false_of_ne hid]
        simp only [Bool.false_eq_true, if_false]
        omega
    · rfl
    · show p.stats.released + (p.stats.dropped + 1) = _
      rw [Pool.takenBack, List.length_singleton]
      omega

/-- Every node of a subtree comes back. -/
theorem refilled_release (p : Pool σ) (n : Node σ) : p.Refilled (p.release n) n.ids := by
  have hfold (ns : List (Node σ)) (p : Pool σ) : p.Refilled (ns.foldl put p) (ns.map Node.id) := by
    induction ns generalizing p with
    | nil => exact Refilled.nil p
    | cons n rest ih => exact (p.refilled_put n).append (ih (p.put n))
  exact (hfold (returnOrder n) p).perm ((returnOrder_perm n).map Node.id)

/-! ### The order of taking back -/

private theorem withStack_comm (p : Pool σ) {id other : NodeId} (h : id ≠ other)
    (ns ms : List (Node σ)) :
    (p.withStack id ns).withStack other ms = (p.withStack other ms).withStack id ns := by
  have hfree : (p.free.insert id ns).insert other ms = (p.free.insert other ms).insert id ns := by
    apply Std.ExtTreeMap.ext_getElem?
    intro k
    simp only [Std.ExtTreeMap.getElem?_insert, Std.LawfulEqCmp.compare_eq_iff_eq]
    by_cases hk : id = k
    · subst hk
      simp [Ne.symm h]
    · simp [hk]
  simp only [withStack, hfree]

private theorem stack_put_of_ne (p : Pool σ) {n : Node σ} {id : NodeId} (h : n.id ≠ id) :
    (p.put n).stack id = p.stack id := by
  unfold put
  split
  · exact (p.stack_withStack n.id id _).trans (if_neg h)
  · rfl

/-- Nodes of different identifiers may come back in any order. -/
theorem put_comm (p : Pool σ) {a b : Node σ} (h : a.id ≠ b.id) :
    (p.put a).put b = (p.put b).put a := by
  have ha := p.stack_put_of_ne h
  have hb := p.stack_put_of_ne (Ne.symm h)
  have hmax (n : Node σ) : (p.put n).maxFree = p.maxFree := (p.refilled_put n).maxFree
  have hput (q : Pool σ) (n : Node σ) (hs : q.stack n.id = p.stack n.id)
      (hm : q.maxFree = p.maxFree) : q.put n =
        if p.freeCount n.id < p.maxFree then
          { q.withStack n.id (n.scrubbed :: p.stack n.id) with
            stats.released := q.stats.released + 1 }
        else { q with stats.dropped := q.stats.dropped + 1 } := by
    simp only [put, freeCount, hs, hm]
    rfl
  rw [hput (p.put a) b ha (hmax a), hput (p.put b) a hb (hmax b), hput p a rfl rfl,
    hput p b rfl rfl]
  have hcomm := p.withStack_comm h (a.scrubbed :: p.stack a.id) (b.scrubbed :: p.stack b.id)
  simp only [withStack, Pool.mk.injEq, true_and, and_true] at hcomm
  split
  · split
    · simp only [withStack, hcomm]
    · rfl
  · split
    · rfl
    · rfl

/-- Nodes with different identifiers can be put back in any order. -/
theorem foldl_put_of_perm {ns ms : List (Node σ)} (h : ns.Perm ms) (hn : (ns.map Node.id).Nodup)
    (p : Pool σ) : ns.foldl put p = ms.foldl put p := by
  refine h.foldl_eq' (fun a ha b hb q ↦ ?_) p
  by_cases hab : a = b
  · rw [hab]
  · exact (q.put_comm fun hid ↦ hab (List.inj_on_of_nodup_map hn ha hb hid))

/-! ### Handing out and taking back -/

/-- Whether a pool was asked for nodes, of which some were kept and the others came back. -/
def Traded (p q : Pool σ) (asked kept : List NodeId) : Prop :=
  ∃ drawn back, p.Drawn drawn asked ∧ drawn.Refilled q back ∧ (kept ++ back).Perm asked

variable {p q r : Pool σ} {asked asked' kept kept' : List NodeId}

/-- Where nothing comes back, all that was asked for was kept. -/
theorem Drawn.traded (h : p.Drawn q asked) : p.Traded q asked asked := by
  refine ⟨q, [], h, Refilled.nil q, ?_⟩
  rw [List.append_nil]

/-- Later trades come on top of what was handed out before. -/
theorem Drawn.append_traded (h : p.Drawn q asked) (h' : q.Traded r asked' kept') :
    p.Traded r (asked ++ asked') (asked ++ kept') := by
  obtain ⟨drawn, back, hd, hb, hperm⟩ := h'
  refine ⟨drawn, back, h.append hd, hb, ?_⟩
  rw [List.append_assoc]
  exact hperm.append_left asked

/-- If all is kept, nothing came back. -/
theorem Traded.drawn (h : p.Traded q asked asked) : p.Drawn q asked := by
  obtain ⟨drawn, back, hd, hb, hperm⟩ := h
  obtain rfl : back = [] := by
    have hlength := hperm.length_eq
    rw [List.length_append] at hlength
    exact List.eq_nil_of_length_eq_zero (by omega)
  constructor
  · rw [hb.maxFree, hd.maxFree]
  · intro id
    rw [hb.freeCount, hd.freeCount, List.count_nil]
    omega
  · rw [hb.handedOut, hd.handedOut]
  · rw [hb.takenBack, hd.takenBack]
    rfl

/-- What was kept may come back later. -/
theorem Traded.giveBack (h : p.Traded q asked kept) (hr : q.Refilled r kept) :
    p.Traded r asked [] := by
  obtain ⟨drawn, back, hd, hb, hperm⟩ := h
  refine ⟨drawn, back ++ kept, hd, hb.append hr, ?_⟩
  rw [List.nil_append]
  exact List.perm_append_comm.trans hperm

/-- The pool handed out as many nodes as it was asked for. -/
theorem Traded.handedOut (h : p.Traded q asked kept) :
    q.handedOut = p.handedOut + asked.length := by
  obtain ⟨drawn, back, hd, hb, -⟩ := h
  rw [hb.handedOut, hd.handedOut]

/-- The pool took back as many nodes as were asked for and not kept. -/
theorem Traded.takenBack (h : p.Traded q asked kept) :
    q.takenBack + kept.length = p.takenBack + asked.length := by
  obtain ⟨drawn, back, hd, hb, hperm⟩ := h
  rw [hb.takenBack, hd.takenBack, ← hperm.length_eq, List.length_append]
  omega

/-! ### Bounds of stacks -/

/-- Whether no stack is longer than the bound. -/
def Bounded (p : Pool σ) : Prop := ∀ id, p.freeCount id ≤ p.maxFree

/-- A pool within its bounds that takes back all it handed out for different identifiers has its
stacks as they were, but one node in a stack that was empty. -/
theorem Traded.freeCount_of_nodup (h : p.Traded q asked []) (hp : p.Bounded) (hn : asked.Nodup)
    (id : NodeId) :
    q.freeCount id =
      if id ∈ asked then max (p.freeCount id) (min 1 p.maxFree) else p.freeCount id := by
  obtain ⟨drawn, back, hd, hb, hperm⟩ := h
  have hbound := hp id
  have hback : back.count id = asked.count id := hperm.count_eq id
  rw [hb.freeCount, hd.freeCount, hd.maxFree, hback, hn.count]
  split <;> omega

/-- The stacks of an empty pool are within the bound. -/
theorem bounded_empty (maxFree : Nat) : (empty maxFree : Pool σ).Bounded := by
  intro id
  rw [freeCount_empty]
  exact Nat.zero_le _

/-- Handing out keeps the stacks within the bound. -/
theorem Drawn.bounded (h : p.Drawn q asked) (hp : p.Bounded) : q.Bounded := by
  intro id
  have hbound := hp id
  rw [h.freeCount, h.maxFree]
  omega

/-- Taking back keeps the stacks within the bound. -/
theorem Refilled.bounded (h : p.Refilled q asked) (hp : p.Bounded) : q.Bounded := by
  intro id
  have hbound := hp id
  rw [h.freeCount, h.maxFree]
  omega

/-- Handing out and taking back keeps the stacks within the bound. -/
theorem Traded.bounded (h : p.Traded q asked kept) (hp : p.Bounded) : q.Bounded := by
  obtain ⟨drawn, back, hd, hb, -⟩ := h
  exact hb.bounded (hd.bounded hp)

private theorem Bounded.fill (hp : p.Bounded) (copies : Nat) (model : Node σ) :
    (p.fill copies model).Bounded := by
  intro id
  have hbound := hp id
  show (p.withStack _ _).freeCount id ≤ p.maxFree
  rw [freeCount_withStack]
  split
  · next hid =>
    subst hid
    rw [List.length_append, List.length_replicate]
    show _ + p.freeCount model.id ≤ _
    omega
  · exact hbound

/-- Prewarming keeps the stacks within the bound. -/
theorem Bounded.prewarm (hp : p.Bounded) (root : Node σ) (copies : Nat) :
    (p.prewarm root copies).Bounded := by
  unfold Pool.prewarm
  generalize (Walk.start root).toList = ns
  induction ns generalizing p with
  | nil => exact hp
  | cons n rest ih => exact ih (hp.fill copies n)

/-- Clearing leaves stacks within the bound. -/
theorem Bounded.clear (p : Pool σ) : p.clear.Bounded := bounded_empty p.maxFree

end Pool

end BehaviorTree
