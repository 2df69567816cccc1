import BehaviorTree.Proofs.Pool.Tally

/-!
# Exchanging nodes

Nodes are taken from a pool and others are given back. Which comes first makes a difference only to
an identifier that is both taken and given back: an empty stack has nothing to hand out unless the
returned node comes first, and a full one keeps the returned node only if one was taken before
(`exchange_iff`).
-/

namespace BehaviorTree

namespace Tally

attribute [ext] Tally

variable {maxFree : Nat} {t : Tally} {new old : List NodeId}

private theorem free_release (t : Tally) (maxFree : Nat) (ids : List NodeId) (id : NodeId) :
    (t.release maxFree ids).free id = min maxFree (t.free id + ids.count id) := rfl

private theorem stats_release (t : Tally) (maxFree : Nat) (ids : List NodeId) :
    (t.release maxFree ids).stats = { t.stats with
      released := t.stats.released + ∑ id ∈ ids.toFinset, t.kept maxFree ids id
      dropped := t.stats.dropped +
        ∑ id ∈ ids.toFinset, (ids.count id - t.kept maxFree ids id) } := rfl

/-- Taking one node of each of some identifiers. -/
theorem foldl_acquire (hn : new.Nodup) (t : Tally) :
    (∀ id, (new.foldl acquire t).free id = t.free id - if id ∈ new then 1 else 0) ∧
      (new.foldl acquire t).stats =
        { t.stats with
          hits := t.stats.hits + new.countP fun id ↦ 0 < t.free id
          misses := t.stats.misses + new.countP fun id ↦ ¬ 0 < t.free id } := by
  induction new generalizing t with
  | nil => exact ⟨fun _ ↦ rfl, rfl⟩
  | cons first rest ih =>
    obtain ⟨hfirst, hrest⟩ := List.nodup_cons.mp hn
    obtain ⟨hfree, hstats⟩ := ih hrest (t.acquire first)
    have hsame : ∀ id ∈ rest, (t.acquire first).free id = t.free id := by
      intro id hid
      have hne : id ≠ first := fun heq ↦ hfirst (heq ▸ hid)
      rw [free_acquire, if_neg hne, Nat.sub_zero]
    have hcount (p : Nat → Prop) [DecidablePred p] :
        (rest.countP fun id ↦ p ((t.acquire first).free id)) =
          rest.countP fun id ↦ p (t.free id) :=
      List.countP_congr fun id hid ↦ by rw [hsame id hid]
    constructor
    · intro id
      rw [List.foldl_cons, hfree, free_acquire]
      by_cases hid : id = first
      · simp [hid, hfirst]
      · simp [hid]
    · rw [List.foldl_cons, hstats, hcount (0 < ·), hcount (¬ 0 < ·), stats_acquire,
        List.countP_cons, List.countP_cons]
      by_cases hf : 0 < t.free first
      · simp [hf, Nat.add_assoc, Nat.add_comm 1]
      · simp [hf, Nat.add_assoc, Nat.add_comm 1]

/-- Whether it makes no difference to an identifier that one node is taken and one given back: its
stack keeps nothing, or is neither empty nor full. -/
def Indifferent (maxFree : Nat) (t : Tally) (id : NodeId) : Prop :=
  maxFree = 0 ∨ 0 < t.free id ∧ t.free id < maxFree

/-- Taking nodes and giving others back comes to the same in either order if, and only if, it makes
no difference to the identifiers that are both taken and given back. -/
theorem exchange_iff (hb : ∀ id, t.free id ≤ maxFree) (hnew : new.Nodup) (hold : old.Nodup) :
    (new.foldl acquire t).release maxFree old = new.foldl acquire (t.release maxFree old) ↔
      ∀ id ∈ old, id ∈ new → t.Indifferent maxFree id := by
  obtain ⟨htaken, htakenStats⟩ := foldl_acquire hnew t
  obtain ⟨hlater, hlaterStats⟩ := foldl_acquire hnew (t.release maxFree old)
  have hcount (id : NodeId) : old.count id = if id ∈ old then 1 else 0 := hold.count
  constructor
  · intro h id hid hid'
    have hfree := congrFun (congrArg free h) id
    have hbound := hb id
    rw [free_release, htaken, hlater, free_release, hcount, if_pos hid, if_pos hid'] at hfree
    unfold Indifferent
    omega
  · intro h
    have hfree (id : NodeId) :
        min maxFree (t.free id - (if id ∈ new then 1 else 0) + old.count id) =
          min maxFree (t.free id + old.count id) - if id ∈ new then 1 else 0 := by
      have hbound := hb id
      rw [hcount]
      by_cases hid : id ∈ old
      · by_cases hid' : id ∈ new
        · have hsame := h id hid hid'
          unfold Indifferent at hsame
          simp only [if_pos hid, if_pos hid']
          omega
        · simp only [if_neg hid', Nat.sub_zero]
      · simp only [if_neg hid]
        omega
    have hkept : ∀ id ∈ old, (new.foldl acquire t).kept maxFree old id = t.kept maxFree old id := by
      intro id hid
      have hbound := hb id
      rw [kept, kept, htaken, hcount, if_pos hid]
      by_cases hid' : id ∈ new
      · have hsame := h id hid hid'
        unfold Indifferent at hsame
        rw [if_pos hid']
        omega
      · rw [if_neg hid', Nat.sub_zero]
    have hhit : ∀ id ∈ new, 0 < (t.release maxFree old).free id ↔ 0 < t.free id := by
      intro id hid'
      have hbound := hb id
      rw [free_release, hcount]
      by_cases hid : id ∈ old
      · have hsame := h id hid hid'
        unfold Indifferent at hsame
        rw [if_pos hid]
        omega
      · rw [if_neg hid]
        omega
    have hgone : ∑ id ∈ old.toFinset, (old.count id - (new.foldl acquire t).kept maxFree old id) =
        ∑ id ∈ old.toFinset, (old.count id - t.kept maxFree old id) :=
      Finset.sum_congr rfl fun id hid ↦ by rw [hkept id (List.mem_toFinset.mp hid)]
    have hstay : ∑ id ∈ old.toFinset, (new.foldl acquire t).kept maxFree old id =
        ∑ id ∈ old.toFinset, t.kept maxFree old id :=
      Finset.sum_congr rfl fun id hid ↦ hkept id (List.mem_toFinset.mp hid)
    have hhits : new.countP (fun id ↦ 0 < (t.release maxFree old).free id) =
        new.countP fun id ↦ 0 < t.free id :=
      List.countP_congr fun id hid ↦ by simpa using hhit id hid
    have hmisses : new.countP (fun id ↦ ¬ 0 < (t.release maxFree old).free id) =
        new.countP fun id ↦ ¬ 0 < t.free id :=
      List.countP_congr fun id hid ↦ by simpa using not_congr (hhit id hid)
    ext id
    · rw [free_release, htaken, hlater, free_release, hfree]
    · rw [stats_release, htakenStats, hlaterStats, hhits, hmisses, stats_release, hstay, hgone]

end Tally

end BehaviorTree
