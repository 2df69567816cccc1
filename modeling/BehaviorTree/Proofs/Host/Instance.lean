import BehaviorTree.Proofs.Host.Session
import BehaviorTree.Proofs.Host.Trace
import BehaviorTree.Proofs.Tree.Assembled
import BehaviorTree.Proofs.Tree.Traversal

/-!
# Instances of a prototype

If each leaf of a prototype can be bound to an owner, instantiating gives what the author built,
with the leaves bound and nothing else done, whatever has become of the prototype since and whatever
the pool held (`instantiate_copies`).
-/

namespace BehaviorTree

variable {ο σ ν ω : Type}

/-- Whether leaves in some states can be bound one after the other; with their states and the world
afterwards. -/
inductive Behavior.Awoken (B : Behavior ο σ ω) (owner : ο) : List σ → ω → List σ → ω → Prop where
  | nil (w : ω) : Awoken B owner [] w [] w
  | cons {s s' : σ} {ss ss' : List σ} {w w' w'' : ω} (hs : B.awake owner s w = (.ok s', w'))
      (h : Awoken B owner ss w' ss' w'') : Awoken B owner (s :: ss) w (s' :: ss') w''

namespace Behavior.Awoken

variable {B : Behavior ο σ ω} {owner : ο}

/-- Nodes whose leaves can be bound are bound. -/
theorem bindEach {ns : List (Node σ)} {ss : List σ} {w w' : ω}
    (h : B.Awoken owner (Node.leafStates ns) w ss w') :
    ∃ bound, Node.bindEach B owner ns w = ⟨bound, none, w'⟩ ∧ Node.leafStates bound = ss := by
  induction ns generalizing ss w with
  | nil =>
    cases h
    exact ⟨[], rfl, rfl⟩
  | cons n rest ih =>
    cases n with
    | leaf tag life s =>
      obtain _ | ⟨hs, h⟩ := h
      obtain ⟨bound, hbound, rfl⟩ := ih h
      exact ⟨.leaf tag life _ :: bound,
        by simp only [Node.bindEach, Node.awake, hs, Except.map, hbound], rfl⟩
    | composite tag life kind resume children =>
      obtain ⟨bound, hbound, rfl⟩ := ih h
      exact ⟨.composite tag life kind resume children :: bound,
        by simp only [Node.bindEach, Node.awake, hbound], rfl⟩
    | decorator tag life kind memory child =>
      obtain ⟨bound, hbound, rfl⟩ := ih h
      exact ⟨.decorator tag life kind memory child :: bound,
        by simp only [Node.bindEach, Node.awake, hbound], rfl⟩

/-- The trace has one call for each leaf, in order. -/
theorem traced {ss ss' : List (ν × σ)} {w w' : ω × List (HookEvent ν)}
    (h : B.traced.Awoken owner ss w ss' w') :
    w'.2 = w.2 ++ ss.map fun x ↦ ⟨x.1, .awake, []⟩ := by
  induction h with
  | nil w => exact (List.append_nil _).symm
  | cons hs _ ih =>
    have hw := congrArg (fun r ↦ r.2.2) hs
    rw [ih, ← hw, List.map_cons, List.append_cons]
    rfl

end Behavior.Awoken

namespace Session

variable {B : Behavior ο σ ω}

/-- If each leaf of a prototype can be bound to an owner, in a session of which nothing else is
known, there is an instance. It is the author's tree, with leaves in the states that binding them
in pre-order gave, each once; every node is unused, and the registry lists the nodes. Apart from the
pool, the session is as it was, with one more tree. And whatever is copied, from whatever pool and
for whomever, copying it with a stack of frames comes to the same. -/
theorem instantiate_copies {s : Session (ν × σ) (ω × List (HookEvent ν))}
    (hs : s.Reachable B.traced) {t : Tree ο (ν × σ)} (ht : t.IsPrototype B.traced) {owner : ο}
    {states : List (ν × σ)} {w : ω × List (HookEvent ν)}
    (ha : B.traced.Awoken owner t.root.states s.world states w) :
    let s' := s.instantiate B.traced t owner
    (∃ root : Node (ν × σ),
      (t.instantiate B.traced owner s.host).1 = .ok ⟨root, root.ids, some owner, true, none⟩ ∧
        root.frame (fun _ ↦ ()) = t.root.frame (fun _ ↦ ()) ∧
        root.states = states ∧ root.AllUnused ∧
        s'.world = w ∧ w.2 = s.world.2 ++ t.root.states.map (fun x ↦ ⟨x.1, .awake, []⟩) ∧
        s'.nodes = root :: s.nodes ∧ s'.scopes = s.scopes ∧ s'.fresh = s.fresh ∧
        t.root.assemble B.traced owner s.pool s.world = some (.ok root, s'.pool, w)) ∧
      ∀ (n : Node (ν × σ)) (owner : ο) (p : Pool (ν × σ)) (w : ω × List (HookEvent ν)),
        let r := n.copy B.traced owner p w
        ∃ q, n.assemble B.traced owner p w = some (r.1, q, r.2.2) := by
  intro s'
  constructor
  · obtain ⟨bound, hbound, hstates⟩ := ha.bindEach
    have hkeyed : s.host.pool.Keyed := hs.tidy.keyed
    obtain ⟨root, q, hcopy, -, hids, hroot⟩ := Node.copy_of_bound hkeyed hbound
    have hcopied : Node.Copied (fun _ : ν × σ ↦ ()) (fun u ↦ u) t.root s.host.pool
      (t.root.copy B.traced owner s.host.pool s.world) :=
      Node.copied_copy (fun _ _ _ _ ↦ rfl) t.root s.host.pool s.world
    have hframe := hcopied.frame root (by rw [hcopy])
    rw [Node.map_self] at hframe
    have hmade : t.instantiate B.traced owner s.host = _ := Tree.instantiate_of_copy ht.kept.2 hcopy
    rw [ht.registry, ← hids] at hmade
    have hs' : s' = ⟨⟨⟨w, s.fresh⟩, s.scopes⟩, q, root :: s.nodes⟩ := by
      simp only [s', Session.instantiate, hmade]
      rfl
    obtain ⟨q', hassemble, hpool⟩ := t.root.assemble_spec B.traced owner s.host.pool s.world
    rw [hcopy] at hassemble hpool
    obtain rfl := hpool (.inl ⟨root, rfl⟩)
    rw [hs', hmade]
    exact ⟨root, rfl, hframe, hroot.trans hstates, hcopied.unused root (by rw [hcopy]), rfl,
      ha.traced, rfl, rfl, rfl, hassemble⟩
  · intro n owner p w r
    obtain ⟨q, hassemble, -⟩ := n.assemble_spec B.traced owner p w
    exact ⟨q, hassemble⟩

/-- A prototype that waits for its first leaf, and a pool with one free node for each of its nodes.
The leaf is bound to the host as the prototype left it. -/
theorem instantiate_copies_waiting :
    let B : Behavior Owner (String × Leaf) (World × List (HookEvent String)) :=
      Leaf.behavior.traced
    let script (label : String) (binding : Binding) (position : Nat) (host : String) :
        String × Leaf :=
      (label,
        .script ⟨label, [.running], false, .fixed .success, binding, [], [], [], position, host⟩)
    let serve := Node.newLeaf (.plain (.ofNat 1) "serve") (script "serve" .host 0 "")
    let rest := Node.newLeaf (.plain (.ofNat 2) "rest") (script "rest" .noted 0 "")
    let day := Node.newComposite (.plain (.ofNat 0) "day") .selector [serve, rest]
    let made : Tree Owner (String × Leaf) := ⟨day, day.ids, none, false, none⟩
    let env : Env (World × List (HookEvent String)) :=
      ⟨⟨(.initial, []), ⟨1⟩⟩, (Scope.empty ⟨0⟩).alone⟩
    let t := (made.serve B .tick env).tree
    let fresh : Session (String × Leaf) (World × List (HookEvent String)) :=
      .start ⟨(.initial, []), ⟨0⟩⟩ 64
    let s := fresh.trade (fresh.pool.prewarm day 1) fresh.nodes
    let owner : Owner := ⟨0, .host "inn"⟩
    let s' := s.instantiate B t owner
    let states := [script "serve" .host 1 "inn", script "rest" .noted 0 ""]
    let w : World × List (HookEvent String) :=
      ((World.initial.note (.hook "serve" .awake)).note (.hook "rest" .awake),
        [⟨"serve", .awake, []⟩, ⟨"rest", .awake, []⟩])
    s.Reachable B ∧ t.IsPrototype B ∧ t.lastStatus = some .running ∧
      B.Awoken owner t.root.states s.world states w ∧
      ∃ root : Node (String × Leaf),
        (t.instantiate B owner s.host).1 = .ok ⟨root, root.ids, some owner, true, none⟩ ∧
          root.frame (fun _ ↦ ()) = t.root.frame (fun _ ↦ ()) ∧
          root.states = states ∧ root.AllUnused ∧
          s'.world = w ∧ w.2 = s.world.2 ++ t.root.states.map (fun x ↦ ⟨x.1, .awake, []⟩) ∧
          s'.nodes = root :: s.nodes ∧ s'.scopes = s.scopes ∧ s'.fresh = s.fresh ∧
          t.root.assemble B owner s.pool s.world = some (.ok root, s'.pool, w) := by
  intro B script serve rest day made env t fresh s owner s' states w
  have hs : s.Reachable B := (Reachable.start _ 64).step (.prewarm day 1)
  have ht : t.IsPrototype B := by
    have hmade : Tree.prototype day = .ok made := by
      rw [Tree.prototype, Walk.toList_start]
      rfl
    exact ⟨day, made, [⟨.tick, env⟩], hmade, by rw [Tree.serveAll, Tree.serveAll]⟩
  have hstatus : t.lastStatus = some .running := rfl
  have hstates : t.root.states = [script "serve" .host 1 "", script "rest" .noted 0 ""] := rfl
  have ha : B.Awoken owner t.root.states s.world states w := by
    rw [hstates]
    exact .cons rfl (.cons rfl (.nil _))
  clear_value t
  exact ⟨hs, ht, hstatus, ha, (instantiate_copies hs ht ha).1⟩

end Session

end BehaviorTree
