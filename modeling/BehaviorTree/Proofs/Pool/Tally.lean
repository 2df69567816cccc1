import BehaviorTree.Pool
import Mathlib.Algebra.BigOperators.Group.Finset.Basic

/-!
# Tallies

A tally is what a pool comes to when its nodes are not looked at: one counter of free nodes for each
identifier, with a common bound, and the statistics. Taking back several nodes at once is a single
step of a tally; which of them found their stack full does not matter.
-/

namespace BehaviorTree

/-- What a pool is used for, as far as identifiers tell. -/
inductive Use where
  /-- Takes a node of an identifier. -/
  | acquire (id : NodeId)
  /-- Takes back nodes of some identifiers. -/
  | release (ids : List NodeId)
  /-- Stocks up some identifiers to a number of copies. -/
  | prewarm (ids : List NodeId) (copies : Nat)
  /-- Drops all free nodes. -/
  | clear
  /-- Takes one node for each of some identifiers. -/
  | instantiate (ids : List NodeId)

/-- A counter of free nodes for each identifier, and the statistics. -/
structure Tally where
  free : NodeId → Nat
  stats : PoolStats

namespace Tally

/-- No free nodes, and nothing counted. -/
def zero : Tally := ⟨fun _ ↦ 0, ⟨0, 0, 0, 0⟩⟩

/-- A hit takes one of the free nodes, and a miss none. -/
def acquire (t : Tally) (id : NodeId) : Tally :=
  if 0 < t.free id then
    ⟨Function.update t.free id (t.free id - 1), { t.stats with hits := t.stats.hits + 1 }⟩
  else { t with stats.misses := t.stats.misses + 1 }

/-- How many of several nodes are kept for an identifier, with a bound on the free ones. -/
def kept (t : Tally) (maxFree : Nat) (ids : List NodeId) (id : NodeId) : Nat :=
  min maxFree (t.free id + ids.count id) - t.free id

/-- Several nodes are taken back: of each identifier as many as the bound allows are kept, and the
others are dropped. -/
def release (t : Tally) (maxFree : Nat) (ids : List NodeId) : Tally where
  free id := min maxFree (t.free id + ids.count id)
  stats := { t.stats with
    released := t.stats.released + ∑ id ∈ ids.toFinset, t.kept maxFree ids id
    dropped := t.stats.dropped + ∑ id ∈ ids.toFinset, (ids.count id - t.kept maxFree ids id) }

/-- Some identifiers are stocked up to a number of copies, as far as the bound allows. -/
def prewarm (t : Tally) (maxFree : Nat) (ids : List NodeId) (copies : Nat) : Tally :=
  { t with free := fun id ↦
    if id ∈ ids then max (t.free id) (min copies maxFree) else t.free id }

/-- All free nodes are dropped, and the statistics stay. -/
def clear (t : Tally) : Tally := { t with free := fun _ ↦ 0 }

/-- What a use does to the tally of a pool with a bound. -/
def perform (maxFree : Nat) (t : Tally) : Use → Tally
  | .acquire id => t.acquire id
  | .release ids => t.release maxFree ids
  | .prewarm ids copies => t.prewarm maxFree ids copies
  | .clear => t.clear
  | .instantiate ids => ids.foldl acquire t

/-! ### Hits -/

/-- Taking a node lowers the count of its identifier, unless that is zero already. -/
theorem free_acquire (t : Tally) (id other : NodeId) :
    (t.acquire id).free other = t.free other - if other = id then 1 else 0 := by
  unfold acquire
  split
  · next hfree =>
    by_cases hid : other = id
    · subst hid
      simp
    · simp [hid]
  · split
    · next hid =>
      subst hid
      show t.free other = _
      omega
    · rfl

/-- Taking a node is a hit if one is free, and a miss otherwise. -/
theorem stats_acquire (t : Tally) (id : NodeId) :
    (t.acquire id).stats = if 0 < t.free id then { t.stats with hits := t.stats.hits + 1 }
      else { t.stats with misses := t.stats.misses + 1 } := by
  unfold acquire
  split <;> rfl

/-- As long as there are free nodes of each identifier, taking one of each misses nothing. -/
theorem acquire_of_free {t : Tally} {ids : List NodeId} (hn : ids.Nodup)
    (h : ∀ id ∈ ids, 0 < t.free id) :
    (ids.foldl acquire t).stats.misses = t.stats.misses ∧
      ∀ id, (ids.foldl acquire t).free id = t.free id - if id ∈ ids then 1 else 0 := by
  induction ids generalizing t with
  | nil => exact ⟨rfl, fun _ ↦ rfl⟩
  | cons first rest ih =>
    obtain ⟨hfirst, hrest⟩ := List.nodup_cons.mp hn
    have hmiss : (t.acquire first).stats.misses = t.stats.misses := by
      rw [stats_acquire, if_pos (h first List.mem_cons_self)]
    obtain ⟨hmisses, hcounts⟩ := ih (t := t.acquire first) hrest fun id hid ↦ by
      have hne : id ≠ first := fun heq ↦ hfirst (heq ▸ hid)
      rw [free_acquire, if_neg hne]
      exact h id (List.mem_cons_of_mem _ hid)
    rw [List.foldl_cons]
    refine ⟨hmisses.trans hmiss, fun id ↦ ?_⟩
    rw [hcounts, free_acquire]
    by_cases hid : id = first
    · simp [hid, hfirst]
    · simp [hid]

/-- As many times as there are free nodes of each identifier, taking one of each misses nothing. -/
theorem instantiate_of_free {ids : List NodeId} (hn : ids.Nodup) {t : Tally} {count : Nat}
    (h : ∀ id ∈ ids, count ≤ t.free id) (maxFree : Nat) :
    ((List.replicate count (Use.instantiate ids)).foldl (perform maxFree) t).stats.misses =
      t.stats.misses := by
  induction count generalizing t with
  | zero => rfl
  | succ count ih =>
    obtain ⟨hmisses, hcounts⟩ := acquire_of_free hn fun id hid ↦ Nat.zero_lt_of_lt (h id hid)
    rw [List.replicate_succ, List.foldl_cons]
    show (List.foldl (perform maxFree) (ids.foldl acquire t) _).stats.misses = _
    rw [ih (fun id hid ↦ ?_), hmisses]
    have hid' := h id hid
    rw [hcounts, if_pos hid]
    exact Nat.le_sub_one_of_lt hid'

end Tally

end BehaviorTree
