import BehaviorTree.Proofs.Leaf.Waiting
import BehaviorTree.Proofs.Node.Paths
import BehaviorTree.Proofs.Runner.Ledger
import BehaviorTree.Proofs.Tree.Assembled

/-!
# Finding nodes in a tree

A walk can be kept on a stack, from which the last node is taken and onto which its children are
pushed, the first of them last; it visits the nodes of a tree in pre-order, one for each place
(`stacked_singleton`). A root is made a prototype just when its nodes have different identifiers,
and a tree that arose from it lists them all and finds each by its own (`lookups_follow_preorder`).
-/

namespace BehaviorTree

variable {ο σ ω : Type}

private theorem Node.sizes_reverse (ns : List (Node σ)) : sizes ns.reverse = sizes ns := by
  induction ns with
  | nil => rfl
  | cons c rest ih =>
    simp only [List.reverse_cons, sizes_append, sizes, ih]
    omega

namespace Walk

/-- The nodes that come from a stack whose top is its last node. -/
def stacked (stack : List (Node σ)) : List (Node σ) :=
  match _h : stack.getLast? with
  | none => []
  | some n => n :: stacked (stack.dropLast ++ n.children.reverse)
termination_by Node.sizes stack
decreasing_by
  obtain ⟨below, rfl⟩ := List.getLast?_eq_some_iff.mp _h
  simp only [List.dropLast_concat, Node.sizes_append, Node.sizes_reverse, Node.sizes,
    Node.size_eq n]
  omega

/-- A stack is what is pending, next one last. -/
theorem stacked_eq (stack : List (Node σ)) : stacked stack = toList ⟨stack.reverse⟩ := by
  fun_induction stacked stack with
  | case1 stack h =>
    obtain rfl := List.getLast?_eq_none_iff.mp h
    rw [List.reverse_nil, toList]
  | case2 stack n h ih =>
    obtain ⟨below, rfl⟩ := List.getLast?_eq_some_iff.mp h
    rw [ih, List.dropLast_concat, List.reverse_append, List.reverse_reverse, List.reverse_concat,
      toList, past]

/-- From a root alone the stack yields the pre-order. -/
theorem stacked_singleton (root : Node σ) : stacked [root] = root.preorder := by
  rw [stacked_eq, List.reverse_singleton]
  exact toList_start root

end Walk

namespace Tree

variable {B : Behavior ο σ ω} {root : Node σ} {t : Tree ο σ}

private theorem nodes_eq (t : Tree ο σ) : t.nodes = t.root.preorder := Walk.toList_start t.root

private theorem find?_eq (t : Tree ο σ) (id : NodeId) :
    t.find? id = t.root.preorder.find? (·.id == id) := by
  rw [find?, Walk.find?_eq, Walk.toList_start]

/-- Whether a tree lists its nodes and finds each of them by its identifier. -/
structure Indexed (t : Tree ο σ) : Prop where
  /-- The nodes are visited in pre-order, and the registry has the identifier of each. -/
  registry : t.nodes = t.root.preorder ∧ t.registry = t.nodes.map Node.id
  /-- The tree is as large as its root. -/
  size : t.size = t.root.size ∧ t.nodes.length = t.size
  /-- No identifier stands in two places. -/
  distinguished : t.root.Distinguished
  /-- Looking for an identifier finds the node of the tree that has it. -/
  find? : ∀ id n, t.find? id = some n ↔ ∃ path, t.root.at? path = some n ∧ n.id = id
  /-- That is so for the identifiers in the registry, and for no others. -/
  found : ∀ id, (t.find? id).isSome ↔ id ∈ t.registry

private theorem indexed_of_registry (hregistry : t.registry = t.root.ids) (hn : t.root.ids.Nodup) :
    t.Indexed where
  registry := ⟨t.nodes_eq, by rw [nodes_eq, hregistry, Node.ids]⟩
  size := by
    rw [Tree.size, hregistry, t.length_nodes, Node.ids, List.length_map, Node.length_preorder]
    exact ⟨rfl, rfl⟩
  distinguished := Node.nodup_ids_iff.mp hn
  find? id n := by
    rw [find?_eq]
    constructor
    · intro h
      obtain ⟨path, hpath⟩ := Node.mem_preorder_iff.mp (List.mem_of_find?_eq_some h)
      exact ⟨path, hpath, by simpa using List.find?_some h⟩
    · rintro ⟨path, hpath, rfl⟩
      have hmem := Node.mem_preorder_of_at? hpath
      cases hf : t.root.preorder.find? (·.id == n.id) with
      | none => exact absurd (List.find?_eq_none.mp hf n hmem) (by simp)
      | some m =>
        obtain ⟨path', hpath'⟩ := Node.mem_preorder_iff.mp (List.mem_of_find?_eq_some hf)
        have hid : m.id = n.id := by simpa using List.find?_some hf
        obtain rfl := Node.nodup_ids_iff.mp hn hpath' hpath hid
        rw [← hpath', hpath]
  found id := by
    rw [find?_eq, List.find?_isSome, hregistry, Node.ids, List.mem_map]
    simp

private theorem Arisen.indexed (h : t.Arisen B root) : t.Indexed := by
  obtain ⟨hregistry, hids, hn⟩ := h.registry
  exact indexed_of_registry (hregistry.trans hids.symm) (hids ▸ hn)

/-- A walk with a stack visits a root in pre-order, which has the node in each place once, the
places being sorted. The root is accepted as a prototype just when the nodes in different places
have different identifiers; otherwise the error names the identifier of the first node that comes
after another with the same. Whatever tree arises from it by instantiating, ticking and stopping has
its registry, lists its nodes and finds each by its identifier. -/
theorem lookups_follow_preorder (B : Behavior ο σ ω) (root : Node σ) :
    (Walk.stacked [root] = root.preorder ∧
      root.preorder.map some = root.paths.map root.at? ∧ root.paths.Pairwise (· < ·) ∧
      ∀ path, path ∈ root.paths ↔ ∃ n, root.at? path = some n) ∧
    ((∃ t : Tree ο σ, Tree.prototype root = .ok t) ↔ root.Distinguished) ∧
    (∀ e, (Tree.prototype root : Except TreeError (Tree ο σ)) = .error e ↔
      ∃ before n after, root.preorder = before ++ n :: after ∧ (before.map Node.id).Nodup ∧
        (∃ m ∈ before, m.id = n.id) ∧ e = .duplicateId n.id) ∧
    ∀ t : Tree ο σ, t.Arisen B root → t.registry = root.preorder.map Node.id ∧ t.Indexed :=
  ⟨⟨Walk.stacked_singleton root, root.map_at?_paths.symm, root.paths_sorted,
      fun _ ↦ Node.mem_paths⟩,
    exists_prototype_iff.trans Node.nodup_ids_iff, fun _ ↦ prototype_eq_error_iff,
    fun _ h ↦ ⟨h.registry.1, h.indexed⟩⟩

/-- An instance of a prototype that was ticked and then stopped, and a root of two leaves with one
identifier. -/
theorem lookups_follow_preorder_pause :
    let B : Behavior Owner (String × Wait) (World × List (HookEvent String)) :=
      Wait.behavior.traced
    let host : Host (String × Wait) (World × List (HookEvent String)) :=
      ⟨⟨(.initial, []), ⟨1⟩⟩, .empty 64⟩
    let env : Env (World × List (HookEvent String)) :=
      ⟨⟨(.initial, []), ⟨1⟩⟩, (Scope.empty ⟨0⟩).alone⟩
    let twin : Node (String × Wait) :=
      .newLeaf (.plain (.ofNat 1) "wait") ("wait", Wait.ofSeconds 1)
    (∃ x, (Wait.pause.instantiate B ⟨0, .unit⟩ host).1 = .ok x ∧
      let t := ((x.serve B .tick env).tree.serve B .stop env).tree
      t.Arisen B Wait.pause.root ∧ t.registry = Wait.pause.root.preorder.map Node.id ∧
        t.Indexed) ∧
    (Tree.prototype (.newComposite (.plain (.ofNat 0) "pair") .sequencer [twin, twin]) :
      Except TreeError (Tree Owner (String × Wait))) = .error (.duplicateId (.ofNat 1)) := by
  intro B host env twin
  refine ⟨?_, ?_⟩
  · have hmade : Tree.prototype Wait.pause.root = .ok Wait.pause := by
      rw [Tree.prototype, Walk.toList_start]
      rfl
    obtain ⟨x, hx⟩ : ∃ x, (Wait.pause.instantiate B ⟨0, .unit⟩ host).1 = .ok x := ⟨_, rfl⟩
    have ht : (((x.serve B .tick env).tree.serve B .stop env).tree).Arisen B Wait.pause.root :=
      (((Arisen.prototype hmade).instantiated (Prod.ext hx rfl)).served .tick env).served .stop env
    exact ⟨x, hx, ht, (lookups_follow_preorder B Wait.pause.root).2.2.2 _ ht⟩
  · refine ((lookups_follow_preorder B _).2.2.1 _).mpr ?_
    exact ⟨[_, twin], twin, [], rfl, by decide, ⟨twin, by simp, rfl⟩, rfl⟩

end Tree

end BehaviorTree
