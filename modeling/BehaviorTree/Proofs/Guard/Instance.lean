import BehaviorTree.Proofs.Guard.Think
import BehaviorTree.Proofs.Pool.Stock
import BehaviorTree.Proofs.Tree.Binding

/-!
# Instances of the guard's tree

The guard's tree can be instantiated for any guard and from any pool in which each free node lies in
the stack of its identifier. An instance is the author's tree, bound to the guard (`Posted`), and
ready for its first think.
-/

namespace BehaviorTree

namespace Leaf

/-- The leaf bound to an owner, if it can be. -/
def boundTo (owner : Owner) (x : Leaf) : Leaf := (awake owner x .initial).1.toOption.getD x

/-- Whether a leaf can be bound, and to what, does not depend on the world. -/
theorem fst_awake (owner : Owner) (x : Leaf) (w w' : World) :
    (awake owner x w).1 = (awake owner x w').1 := by
  cases x with
  | script s =>
    have hs : (s.awake owner.host? w).1 = (s.awake owner.host? w').1 := by
      unfold Script.awake
      cases s.binding with
      | host => cases owner.host? <;> rfl
      | _ => rfl
    exact congrArg (Except.map script) hs
  | _ => rfl

private theorem eq_boundTo {owner : Owner} {x x' : Leaf} {w : World}
    (h : (behavior.awake owner x w).1 = .ok x') : x' = x.boundTo owner := by
  have hx : (awake owner x .initial).1 = .ok x' := (fst_awake owner x _ w).trans h
  rw [boundTo, hx]
  rfl

/-- A patrol that was bound to a guard has a waypoint to walk to. -/
theorem paces_boundTo (id : Nat) (guard : UInt64) (p : Patrol) :
    (boundTo ⟨id, .guard (.ofId guard)⟩ (patrol p)).Paces := by
  show 1 % (Guard.ofId guard).route.length < (Guard.ofId guard).route.length
  exact Nat.mod_lt _ (Nat.succ_pos _)

end Leaf

namespace Guard

open Node

variable {first : Nat} {linger : Float32} {n : Node Leaf}

/-- Unused nodes that have the shape of a patrol, with the same leaves, are a patrol. -/
theorem onBeat_of_frame {tag tag' : Tag} {life life' : Life} {memory : Memory} {resume : Nat}
    {paces : List (Node Leaf)} (hu : n.AllUnused)
    (hf : n.frame (fun x ↦ x) =
      decorator tag life .scoped memory (some (composite tag' life' .sequencer resume paces)))
    (hp : ∀ c ∈ paces, IsPace c) : OnBeat n := by
  obtain ⟨life, memory, child, rfl, hchild⟩ := recast_eq_decorator hf
  obtain ⟨m, rfl, hm⟩ := Option.map_eq_some_iff.mp hchild
  obtain ⟨life', resume, children, rfl, hchildren⟩ := recast_eq_composite hm
  have hvacant : memory.Vacant := hu.here.2.2.2
  refine .mk (hvacant.confined headingOnly_empty) (.mk fun c hc ↦ ?_)
  obtain ⟨tag, life, x, heq, hx⟩ := hp (c.frame fun x ↦ x) (hchildren ▸ List.mem_map_of_mem hc)
  obtain ⟨life', x', rfl, hstate⟩ := recast_eq_leaf heq
  obtain rfl : x' = x := hstate
  exact ⟨_, _, _, rfl, hx⟩

/-- A tree of unused nodes that is a guard's tree bound to the guard is ready for a think. -/
theorem poised_of_frame {id : Nat} {guard : UInt64} (hu : n.AllUnused)
    (hf : n.frame (fun x ↦ x) =
      ((root first linger).frame fun x ↦ x).map (Leaf.boundTo ⟨id, .guard (.ofId guard)⟩)) :
    Poised 0 n := by
  obtain ⟨life, resume, children, rfl, hchildren⟩ := recast_eq_composite hf
  obtain ⟨c, rest, rfl, hc, hrest⟩ := List.map_eq_cons_iff.mp hchildren
  obtain ⟨d, rest, rfl, hd, hnil⟩ := List.map_eq_cons_iff.mp hrest
  obtain rfl := List.map_eq_nil_iff.mp hnil
  obtain ⟨life', e, rfl, he⟩ := recast_eq_leaf hc
  obtain rfl : e = .engage (.ofBurst burst) := he
  obtain rfl : life = .fresh := hu.here.life_eq
  obtain rfl : life' = .fresh := (hu.below (List.mem_cons_self ..)).here.life_eq
  have hbeat : OnBeat d := by
    refine onBeat_of_frame (hu.below (by simp [children])) hd fun c hc ↦ ?_
    rcases List.mem_cons.mp hc with rfl | hc
    · exact ⟨_, _, _, rfl, Leaf.paces_boundTo id guard _⟩
    · rcases List.mem_singleton.mp hc with rfl
      exact ⟨_, _, _, rfl, trivial⟩
  exact .mk rfl rfl rfl (by decide) hbeat (.inl rfl)

/-- The prototype can be made, as its identifiers are different. -/
theorem prototype_eq (linger : Float32) :
    prototype 1 linger = .ok ⟨root 1 linger, (root 1 linger).ids, none, false, none⟩ := by
  rw [prototype, Tree.prototype, Walk.toList_start]
  rfl

/-- No node of the tree refuses to be bound to a guard. -/
theorem bindEach_root (first : Nat) (linger : Float32) (id : Nat) (guard : UInt64) (w : World) :
    ∃ bound, bindEach Leaf.behavior ⟨id, .guard (.ofId guard)⟩ (root first linger).preorder w =
      ⟨bound, none, w⟩ := ⟨_, rfl⟩

/-- The identifiers of the guard's tree. -/
def nodeIds : List NodeId := (root 1 0).ids

/-- The nodes of a guard have different identifiers. -/
theorem nodup_nodeIds : nodeIds.Nodup := by decide

/-- Whether a tree is an instance of the guard's tree that has not been ticked. -/
structure Posted (t : Tree Owner Leaf) : Prop where
  poised : Poised 0 t.root
  ids : t.root.ids = nodeIds
  lastStatus : t.lastStatus = none

/-- The guard's tree can be instantiated for any guard, with one node of the pool for each of its
nodes. -/
theorem instantiate_prototype {t : Tree Owner Leaf} (ht : prototype 1 linger = .ok t)
    {host : Host Leaf World} (hk : host.pool.Keyed) (id : Nat) (guard : UInt64) :
    let owner : Owner := ⟨id, .guard (.ofId guard)⟩
    ∃ x pool, t.instantiate Leaf.behavior owner host = (.ok x, { host with pool }) ∧
      Posted x ∧ pool.Keyed ∧ host.pool.Drawn pool nodeIds ∧
      host.pool.Accounts pool := by
  intro owner
  obtain ⟨hroot, hprototype⟩ : t.root = root 1 linger ∧ t.isInstance = false := by
    rw [prototype_eq] at ht
    cases ht
    exact ⟨rfl, rfl⟩
  have hbinds : Tree.Instantiated (fun x ↦ x) (Leaf.boundTo owner) t host
      (t.instantiate Leaf.behavior owner host) :=
    Tree.instantiated (fun _ _ _ ↦ Leaf.eq_boundTo) t host
  have haccounts : host.pool.Accounts (t.instantiate Leaf.behavior owner host).2.pool :=
    Tree.accounts_instantiate hk t
  obtain ⟨bound, hbound⟩ := bindEach_root 1 linger id guard host.world
  rw [← hroot] at hbound
  obtain ⟨r, pool, heq, hdrawn, hids, -⟩ := Tree.instantiate_of_bound hprototype hk hbound
  rw [heq] at hbinds haccounts ⊢
  have hframe := hbinds.frame _ rfl
  have hunused := hbinds.unused _ rfl
  rw [hroot] at hframe hids hdrawn
  exact ⟨_, pool, rfl, ⟨poised_of_frame hunused hframe, hids, rfl⟩, hbinds.keyed hk, hdrawn,
    haccounts⟩

end Guard

end BehaviorTree
