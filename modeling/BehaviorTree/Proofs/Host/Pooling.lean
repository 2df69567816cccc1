import BehaviorTree.Proofs.Host.Play
import BehaviorTree.Proofs.Host.Session
import BehaviorTree.Proofs.Host.Trace
import BehaviorTree.Proofs.Leaf.Waiting
import BehaviorTree.Proofs.Twin.Quiet

/-!
# Pooling is transparent

Nodes that come out of a pool carry scopes that were used before, under identities that no scope in
use has. So the instance that a host makes with its pool and the one that it would make with an
empty pool are twins: nobody who plays with them, and sees everything but identities of scopes, can
tell which is which (`pooling_transparent`).
-/

namespace BehaviorTree

variable {ο σ κ ν ω : Type}

/-! ### Quiet trees at one desk -/

/-- Each scope of a desk stands for itself. -/
def Desk.same (d : Desk ω) : Link := fun i j ↦ i = j ∧ d.stores i ≠ 0

/-- A desk is like itself. -/
theorem Desk.alike_self {d : Desk ω} (h : Distinct d.fresh d.stores) : d.Alike d.same d where
  matching := ⟨fun h h' ↦ h.1.symm.trans h'.1, fun h h' ↦ h.1.trans h'.1.symm⟩
  used := by
    rintro i j ⟨rfl, hi⟩
    have hlt : i.number < d.fresh.number := by
      have hle := h i
      split at hle <;> omega
    exact ⟨hlt, hlt⟩
  scopes := by
    refine List.forall₂_same.mpr fun s hs ↦ ⟨⟨rfl, ?_⟩, rfl⟩
    exact Nat.ne_of_gt (List.count_pos_iff.mpr (List.mem_map_of_mem hs))
  world := rfl

/-- The scopes in a quiet subtree are free if the subtree shares no scope with the desk. -/
theorem Node.loose_of_apart {strict : Prop} {free : ScopeId → Prop} {d : Desk ω} {n : Node σ}
    (hq : n.Everywhere Quiet) (hu : strict → n.AllUnused)
    (hd : Distinct d.fresh fun i ↦ n.stores i + d.stores i)
    (hf : ∀ i, d.stores i = 0 → free i) : n.Everywhere (Loose strict free) := by
  intro m hm
  refine ⟨hq m hm, fun hs ↦ hu hs m hm, fun i hi ↦ hf i ?_⟩
  have hown := ownStores_le_stores hm i
  have hle : n.stores i + d.stores i ≤ _ := hd i
  split at hle <;> omega

/-- Quiet trees of one frame are twins if each of them shares no scope with the desk. -/
theorem Tree.paired_of_quiet {part : σ → κ} {strict : Prop} {d : Desk ω} {t t' : Tree ο σ}
    (hf : t.root.frame part = t'.root.frame part) (hq : t.root.Everywhere Node.Quiet)
    (hq' : t'.root.Everywhere Node.Quiet)
    (hu : strict → t.root.AllUnused ∧ t'.root.AllUnused)
    (hd : Distinct d.fresh fun i ↦ t.root.stores i + d.stores i)
    (hd' : Distinct d.fresh fun i ↦ t'.root.stores i + d.stores i) :
    Paired part strict d.same t t' d d where
  desks := Desk.alike_self (hd.of_le fun _ ↦ Nat.le_add_left _ _)
  twins := by
    refine Node.twins_of_frame hf ?_ ?_
    · exact Node.loose_of_apart hq (fun hs ↦ (hu hs).1) hd fun i hi k hk ↦ hk.2 hi
    · refine Node.loose_of_apart hq' (fun hs ↦ (hu hs).2) hd' fun i hi k hk ↦ ?_
      obtain ⟨rfl, hk⟩ := hk
      exact hk hi
  left := hd.of_le fun _ ↦ Nat.le_add_right _ _
  right := hd'.of_le fun _ ↦ Nat.le_add_right _ _

/-! ### Outcomes -/

/-- What can be told of a game without identities of scopes: the replies, the nodes of the tree
with their states, the entries on the desk and the world. -/
structure Outcome (σ ω : Type) where
  replies : List (Option Status)
  root : Node σ
  contents : List Entries
  world : ω

/-- What can be told of a game. -/
def Game.outcome (g : Game ο σ ω) : Outcome σ ω :=
  ⟨g.replies, g.tree.root.plain, g.desk.contents, g.desk.world⟩

/-- Starts and probes depend on no more than all of a leaf's state. -/
theorem Behavior.resets_self (B : Behavior ο σ ω) : B.Resets fun s ↦ s where
  start b w hs := by rw [hs]
  evaluate b w hs := by rw [hs]

/-- Games with unused trees of one frame have the same outcome. -/
theorem Tree.outcome_eq {B : Behavior ο σ ω} (hB : B.Blind) {d : Desk ω} {t t' : Tree ο σ}
    (hf : t.root.frame (fun s ↦ s) = t'.root.frame fun s ↦ s) (hu : t.root.AllUnused)
    (hu' : t'.root.AllUnused) (hd : Distinct d.fresh fun i ↦ t.root.stores i + d.stores i)
    (hd' : Distinct d.fresh fun i ↦ t'.root.stores i + d.stores i) (moves : List (Move ω)) :
    (t.playAll B moves d).outcome = (t'.playAll B moves d).outcome := by
  have hp : Paired (fun s ↦ s) True d.same t t' d d :=
    paired_of_quiet hf (Node.quiet_of_allUnused hu) (Node.quiet_of_allUnused hu')
      (fun _ ↦ ⟨hu, hu'⟩) hd hd'
  obtain ⟨hreplies, r, hr⟩ := playAll_alike hB B.resets_self moves hp
  simp only [Game.outcome, hreplies, hr.twins.plain_eq, hr.desks.contents, hr.desks.world]

namespace Session

variable {B : Behavior ο σ ω} {s : Session σ ω}

/-- An instance shares no scope with the desk, and neither does what is elsewhere. -/
theorem Tidy.apart {elsewhere : ScopeId → Nat} (h : s.Tidy elsewhere) {t x : Tree ο σ} {owner : ο}
    (hx : (t.instantiate B owner s.host).1 = .ok x) :
    let d := (s.withHost (t.instantiate B owner s.host).2).toDesk
    (Distinct d.fresh fun i ↦ x.root.stores i + d.stores i) ∧
      Distinct d.fresh fun i ↦ elsewhere i + d.stores i := by
  have hd := (h.instantiate (B := B) t owner).distinct
  rw [hx] at hd
  simp only [Except.map, Node.storesOk, stores] at hd
  refine ⟨hd.of_le fun i ↦ ?_, hd.of_le fun i ↦ ?_⟩
  · omega
  · omega

/-- With the pool of a session and with an empty pool, instantiating fails with the same error or
makes instances whose games have the same outcome. -/
theorem instances_agree (hB : B.Blind) (h : s.Tidy fun _ ↦ 0) (t : Tree ο σ) (owner : ο)
    (maxFree : Nat) (moves : List (Move ω)) :
    let s' := s.trade (.empty maxFree) s.nodes
    let r := t.instantiate B owner s.host
    let r' := t.instantiate B owner s'.host
    r.2.toOutside = r'.2.toOutside ∧
      r.1.map (fun x ↦ (x.playAll B moves (s.withHost r.2).toDesk).outcome) =
        r'.1.map fun x ↦ (x.playAll B moves (s'.withHost r'.2).toDesk).outcome := by
  intro s' r r'
  have h' : s'.Tidy fun _ ↦ 0 :=
    h.trade (Pool.keyed_empty maxFree) fun i ↦ by rw [Pool.stores_empty]; omega
  have hkeyed : s.host.pool.Keyed := h.keyed
  have hkeyed' : s'.host.pool.Keyed := h'.keyed
  have hagree := t.instantiate_agree B.projects_self hkeyed hkeyed' rfl owner
  rw [Tree.map_self] at hagree
  obtain ⟨hframe, hworld⟩ : r.1.map _ = r'.1.map _ ∧ r'.2.world = r.2.world := hagree
  have hi : t.Instantiated _ _ s.host r := t.framed_instantiate B owner s.host
  have hi' : t.Instantiated _ _ s'.host r' := t.framed_instantiate B owner s'.host
  have hout : r.2.toOutside = r'.2.toOutside :=
    congrArg₂ Outside.mk hworld.symm (hi.fresh.trans hi'.fresh.symm)
  have hdesk : (s'.withHost r'.2).toDesk = (s.withHost r.2).toDesk :=
    congrArg (Desk.mk · s.scopes) hout.symm
  refine ⟨hout, ?_⟩
  rcases map_eq_map_cases hframe with ⟨e, hr, hr'⟩ | ⟨x, x', hr, hr', hx⟩
  · rw [hr, hr']
    rfl
  · have hd := (h'.apart hr').1
    rw [hdesk] at hd ⊢
    rw [hr, hr']
    exact congrArg Except.ok (Tree.outcome_eq hB hx (hi.unused x hr) (hi'.unused x' hr')
      (h.apart hr).1 hd moves)

/-- With any pool that a session can come to and with an empty pool, instantiating fails with the
same error or makes instances that agree for ever: whatever moves are made with them, the replies,
the calls of hooks with what they saw, the nodes, and the entries on the desk are the same. -/
theorem pooling_transparent (hB : B.Blind) {s : Session (ν × σ) (ω × List (HookEvent ν))}
    (hs : s.Reachable B.traced) (t : Tree ο (ν × σ)) (owner : ο) (maxFree : Nat)
    (moves : List (Move (ω × List (HookEvent ν)))) :
    let s' := s.trade (.empty maxFree) s.nodes
    let r := t.instantiate B.traced owner s.host
    let r' := t.instantiate B.traced owner s'.host
    r.2.toOutside = r'.2.toOutside ∧
      r.1.map (fun x ↦ (x.playAll B.traced moves (s.withHost r.2).toDesk).outcome) =
        r'.1.map fun x ↦ (x.playAll B.traced moves (s'.withHost r'.2).toDesk).outcome :=
  instances_agree hB.traced hs.tidy t owner maxFree moves

/-- A pool that took back a tree while it was running, with a scope that it had opened. -/
theorem pooling_transparent_pause :
    let B : Behavior Owner (String × Wait) (World × List (HookEvent String)) :=
      Wait.behavior.traced
    let built : Session (String × Wait) (World × List (HookEvent String)) :=
      ⟨Desk.create ⟨⟨(.initial, []), ⟨0⟩⟩, []⟩, .empty 64, [Wait.pause.root]⟩
    let s := (built.serve B Wait.pause [] .tick ⟨0, []⟩ (Scope.empty ⟨0⟩).alone).release
    let moves := [.serve (.tickWith ⟨1, 0.5⟩) ⟨0, []⟩, .create, .serve .stop ⟨1, [0]⟩]
    let s' := s.trade (.empty 64) s.nodes
    let r := Wait.pause.instantiate B ⟨0, .unit⟩ s.host
    let r' := Wait.pause.instantiate B ⟨0, .unit⟩ s'.host
    s.Reachable B ∧ r.2.toOutside = r'.2.toOutside ∧
      r.1.map (fun x ↦ (x.playAll B moves (s.withHost r.2).toDesk).outcome) =
        r'.1.map fun x ↦ (x.playAll B moves (s'.withHost r'.2).toDesk).outcome := by
  intro B built s moves
  have hbuilt : built.Reachable B :=
    (Reachable.step (.start ⟨(.initial, []), ⟨0⟩⟩ 64) .create).step
      (.arrange [Wait.pause.root] fun i ↦ by simp [Wait.stores_pause])
  have hs : s.Reachable B :=
    (hbuilt.step (.serve Wait.pause [] rfl .tick ⟨0, []⟩ _ rfl)).step .release
  clear_value s
  exact ⟨hs, pooling_transparent Wait.blind_behavior hs Wait.pause ⟨0, .unit⟩ 64 moves⟩

end Session

end BehaviorTree
