import BehaviorTree.Guard.Prototype
import BehaviorTree.Proofs.Host.Session
import BehaviorTree.Proofs.Host.Trace
import BehaviorTree.Proofs.Tree.Binding
import BehaviorTree.Proofs.Tree.Prototype

/-!
# Failed instantiation

When a node of a prototype cannot be bound, nothing of the attempt is left: no node after it was
asked, and the nodes taken for it and for those before it are back in the pool. What tells that
there was an attempt are the counters of the pool, and one node in each stack that was empty
(`instantiate_rolls_back`).
-/

namespace BehaviorTree

variable {ο σ ν ω : Type}

namespace Behavior

variable (B : Behavior ο σ ω) (owner : ο)

/-- The trace of binding: one call for each leaf that was asked, in order. -/
theorem traced_awake (n : Node (ν × σ)) (w : ω × List (HookEvent ν)) :
    (n.awake B.traced owner w).2.2 =
      w.2 ++ (Node.leafStates [n]).map fun x ↦ ⟨x.1, .awake, []⟩ := by
  cases n with
  | leaf => rfl
  | composite => exact (List.append_nil _).symm
  | decorator => exact (List.append_nil _).symm

private theorem traced_bindEach {ns : List (Node (ν × σ))} {w : ω × List (HookEvent ν)}
    (h : (Node.bindEach B.traced owner ns w).refused = none) :
    (Node.bindEach B.traced owner ns w).world.2 =
      w.2 ++ (Node.leafStates ns).map fun x ↦ ⟨x.1, .awake, []⟩ := by
  induction ns generalizing w with
  | nil => exact (List.append_nil _).symm
  | cons n rest ih =>
    have hn := traced_awake B owner n w
    simp only [Node.bindEach] at h ⊢
    generalize n.awake B.traced owner w = a at h hn ⊢
    obtain ⟨r, v⟩ := a
    cases r with
    | error e => cases h
    | ok m =>
      rw [show n :: rest = [n] ++ rest from rfl, Node.leafStates_append, List.map_append,
        ← List.append_assoc, ← hn]
      exact ih h

end Behavior

namespace Session

variable {B : Behavior ο σ ω}

/-! ### Bounds of stacks -/

private theorem bounded_step {s s' : Session σ ω} (hk : s.pool.Keyed) (h : s.pool.Bounded)
    (hs : s.Step B s') : s'.pool.Bounded := by
  cases hs with
  | meanwhile => exact h
  | create => exact h
  | write => exact h
  | arrange => exact h
  | serve => exact h
  | acquire model => exact (Pool.drawn_acquire hk model).bounded h
  | release =>
    unfold release
    split
    · exact h
    · next n rest hn => exact (s.pool.refilled_release n).bounded h
  | prewarm root copies => exact h.prewarm root copies
  | clear => exact Pool.Bounded.clear s.pool
  | instantiate t owner =>
    have hk : s.host.pool.Keyed := hk
    obtain ⟨asked, ht⟩ := t.traded_instantiate B owner hk
    exact ht.bounded h

/-- In a session no stack of the pool grows beyond the bound. -/
theorem Reachable.bounded {s : Session σ ω} (h : Reachable B s) : s.pool.Bounded := by
  induction h with
  | start out maxFree => exact Pool.bounded_empty maxFree
  | step h hs ih => exact bounded_step h.tidy.keyed ih hs

/-- If a node of a prototype is the first that cannot be bound, instantiating fails with its error.
Binding was tried once for each leaf up to it and for no other, nothing else changed for the host,
and the nodes that were taken are back: their stacks are as they were, but for one node where a
stack was empty and may hold one, and each counted once as handed out and once as taken back. -/
theorem instantiate_rolls_back {s : Session (ν × σ) (ω × List (HookEvent ν))}
    (hs : s.Reachable B.traced) {t : Tree ο (ν × σ)} (ht : t.IsPrototype B.traced) {owner : ο}
    {before after bound : List (Node (ν × σ))} {n : Node (ν × σ)} {e : AwakeError}
    {w w' : ω × List (HookEvent ν)} (hn : t.root.preorder = before ++ n :: after)
    (hb : Node.bindEach B.traced owner before s.world = ⟨bound, none, w⟩)
    (he : n.awake B.traced owner w = (.error e, w')) :
    let s' := s.instantiate B.traced t owner
    let asked := before ++ [n]
    (t.instantiate B.traced owner s.host).1 = .error (.awake n.id n.name e) ∧
      s'.world.2 = s.world.2 ++ (Node.leafStates asked).map (fun x ↦ ⟨x.1, .awake, []⟩) ∧
      s'.nodes = s.nodes ∧ s'.scopes = s.scopes ∧ s'.fresh = s.fresh ∧
      (∀ id, s'.pool.freeCount id =
        if id ∈ asked.map Node.id then max (s.pool.freeCount id) (min 1 s.pool.maxFree)
        else s.pool.freeCount id) ∧
      s'.pool.handedOut = s.pool.handedOut + asked.length ∧
      s'.pool.takenBack = s.pool.takenBack + asked.length := by
  intro s' asked
  obtain ⟨hnodup, hinstance⟩ := ht.kept
  have hall : Node.bindEach B.traced owner t.root.preorder s.world = ⟨bound, some (n, e), w'⟩ := by
    rw [hn, Node.bindEach_append, hb, Bindings.andThen]
    simp only [Node.bindEach, he, List.append_nil]
  have hids : bound.map Node.id ++ [n.id] = asked.map Node.id := by
    have hbound : (Node.bindEach B.traced owner before s.world).bound.map Node.id =
      before.map Node.id := Node.ids_bindEach (by rw [hb])
    rw [hb] at hbound
    rw [List.map_append, ← hbound]
    rfl
  have hdifferent : (asked.map Node.id).Nodup := by
    rw [Node.ids, hn, show before ++ n :: after = asked ++ after by simp [asked],
      List.map_append] at hnodup
    exact (List.nodup_append.mp hnodup).1
  have htrace : w'.2 = s.world.2 ++ (Node.leafStates asked).map fun x ↦ ⟨x.1, .awake, []⟩ := by
    have hnone : (Node.bindEach B.traced owner before s.world).refused = none := by rw [hb]
    have hbefore := Behavior.traced_bindEach B owner hnone
    have hlast := Behavior.traced_awake B owner n w
    rw [hb] at hbefore
    rw [he] at hlast
    rw [hlast, hbefore, Node.leafStates_append, List.map_append, List.append_assoc]
  have hkeyed : s.host.pool.Keyed := hs.tidy.keyed
  obtain ⟨q, heq, htraded⟩ := Tree.instantiate_of_refused hinstance hkeyed hall
  rw [hids] at htraded
  have hs' : s' = ⟨⟨⟨w', s.fresh⟩, s.scopes⟩, q, s.nodes⟩ := by
    simp only [s', Session.instantiate, heq]
    rfl
  rw [hs', heq]
  refine ⟨rfl, htrace, rfl, rfl, rfl, ?_, ?_, ?_⟩
  · exact htraded.freeCount_of_nodup hs.bounded hdifferent
  · have hout := htraded.handedOut
    rw [List.length_map] at hout
    exact hout
  · have hback := htraded.takenBack
    rw [List.length_map] at hback
    exact hback

/-- An owner that is no guard, so that the walk, fifth in order, refuses; and a pool that has two
free nodes for each identifier. -/
theorem instantiate_rolls_back_guard :
    let B : Behavior Owner (String × Leaf) (World × List (HookEvent String)) :=
      Leaf.behavior.traced
    let tag (i : Nat) (name : String) : Tag := .plain (.ofNat i) name
    let walk : Node (String × Leaf) := .newLeaf (tag 4 "walk") ("walk", .patrol .unbound)
    let linger := Node.newLeaf (tag 5 "linger") ("linger", Leaf.wait (.ofSeconds 0.5))
    let round := Node.newComposite (tag 3 "round") .sequencer [walk, linger]
    let patrol := Node.newDecorator (tag 2 "patrol") .scoped (some round)
    let engage := Node.newLeaf (tag 1 "engage") ("engage", Leaf.engage (.ofBurst 3))
    let root := Node.newComposite (tag 0 "guard") .selector [engage, patrol]
    let before := [root, engage, patrol, round]
    let t : Tree Owner (String × Leaf) := ⟨root, root.ids, none, false, none⟩
    let fresh : Session (String × Leaf) (World × List (HookEvent String)) :=
      .start ⟨(.initial, []), ⟨0⟩⟩ 64
    let s := fresh.trade (fresh.pool.prewarm root 2) fresh.nodes
    let owner : Owner := ⟨0, .unit⟩
    let s' := s.instantiate B t owner
    let w := (World.initial, [⟨"engage", .awake, []⟩])
    s.Reachable B ∧ t.IsPrototype B ∧ root.preorder = before ++ walk :: [linger] ∧
      Node.bindEach B owner before s.world = ⟨before, none, w⟩ ∧
      walk.awake B owner w =
        (.error (.ownerType "Guard"), (w.1, w.2 ++ [⟨"walk", .awake, []⟩])) ∧
      (t.instantiate B owner s.host).1 = .error (.awake walk.id "walk" (.ownerType "Guard")) ∧
      s'.world.2 = s.world.2 ++ [⟨"engage", .awake, []⟩, ⟨"walk", .awake, []⟩] ∧
      s'.nodes = s.nodes ∧ s'.scopes = s.scopes ∧ s'.fresh = s.fresh ∧
      (∀ id, s'.pool.freeCount id =
        if id ∈ (before ++ [walk]).map Node.id
        then max (s.pool.freeCount id) (min 1 s.pool.maxFree) else s.pool.freeCount id) ∧
      s'.pool.handedOut = s.pool.handedOut + 5 ∧ s'.pool.takenBack = s.pool.takenBack + 5 := by
  intro B tag walk linger round patrol engage root before t fresh s owner s' w
  have hs : s.Reachable B := (Reachable.start _ 64).step (.prewarm root 2)
  have ht : t.IsPrototype B := by
    refine ⟨root, t, [], ?_, rfl⟩
    rw [Tree.prototype, Walk.toList_start]
    rfl
  have hb : Node.bindEach B owner before s.world = ⟨before, none, w⟩ := rfl
  have he : walk.awake B owner w =
      (.error (.ownerType "Guard"), (w.1, w.2 ++ [⟨"walk", .awake, []⟩])) := rfl
  exact ⟨hs, ht, rfl, hb, he, instantiate_rolls_back hs ht rfl hb he⟩

end Session

end BehaviorTree
