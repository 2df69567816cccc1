import BehaviorTree.Proofs.Node.Moved
import Mathlib.Data.List.Nodup
import Mathlib.Data.Option.Basic

/-!
# The places in a tree

A place is a path from the root: it names the index of a child at each step. The places of a tree,
each before those below it and those below an earlier child first, are sorted and are all there are
(`paths_sorted`, `mem_paths`). The pre-order is the list of what stands in them (`map_at?_paths`),
so it has every node of the tree once, even where two nodes are equal.
-/

namespace BehaviorTree

variable {σ : Type}

namespace Node

mutual

/-- The paths of a subtree, each before those below it. -/
def paths : Node σ → List (List Nat)
  | leaf .. => [[]]
  | composite _ _ _ _ children => [] :: pathsFrom 0 children
  | decorator _ _ _ _ none => [[]]
  | decorator _ _ _ _ (some child) => [] :: child.paths.map (0 :: ·)
termination_by structural n => n

/-- The paths of several subtrees, the first of which stands at an index. -/
def pathsFrom (index : Nat) : List (Node σ) → List (List Nat)
  | [] => []
  | c :: rest => c.paths.map (index :: ·) ++ pathsFrom (index + 1) rest
termination_by structural ns => ns

end

private theorem paths_eq (n : Node σ) : n.paths = [] :: pathsFrom 0 n.children := by
  cases n with
  | leaf => simp [paths, children, pathsFrom]
  | composite => simp [paths, children]
  | decorator _ _ _ _ child => cases child <;> simp [paths, children, pathsFrom]

private theorem mem_pathsFrom {index : Nat} {ns : List (Node σ)} {path : List Nat} :
    path ∈ pathsFrom index ns ↔
      ∃ i c rest, ns[i]? = some c ∧ rest ∈ c.paths ∧ path = (index + i) :: rest := by
  induction ns generalizing index with
  | nil => simp [pathsFrom]
  | cons c ns ih =>
    rw [pathsFrom, List.mem_append, ih]
    constructor
    · rintro (h | ⟨i, d, rest, hd, hrest, rfl⟩)
      · obtain ⟨rest, hrest, rfl⟩ := List.mem_map.mp h
        exact ⟨0, c, rest, rfl, hrest, rfl⟩
      · exact ⟨i + 1, d, rest, hd, hrest, by rw [Nat.add_assoc, Nat.add_comm 1]⟩
    · rintro ⟨i, d, rest, hd, hrest, rfl⟩
      cases i with
      | zero =>
        obtain rfl := Option.some.inj hd
        exact .inl (List.mem_map_of_mem hrest)
      | succ i => exact .inr ⟨i, d, rest, hd, hrest, by rw [Nat.add_assoc, Nat.add_comm 1]⟩

/-- Every place of the tree is among the paths, and nothing else is. -/
theorem mem_paths {n : Node σ} {path : List Nat} : path ∈ n.paths ↔ ∃ m, n.at? path = some m := by
  induction path generalizing n with
  | nil => simp [paths_eq n, at?]
  | cons index path ih =>
    simp only [paths_eq n, List.mem_cons, reduceCtorEq, false_or, mem_pathsFrom, Nat.zero_add,
      List.cons.injEq, at?, Option.bind_eq_some_iff]
    constructor
    · rintro ⟨_, c, _, hc, hpath, rfl, rfl⟩
      obtain ⟨m, hm⟩ := ih.mp hpath
      exact ⟨m, c, hc, hm⟩
    · rintro ⟨m, c, hc, hm⟩
      exact ⟨index, c, path, hc, ih.mpr ⟨m, hm⟩, rfl, rfl⟩

/-- The paths below later children are later. -/
theorem sorted_pathsFrom {index : Nat} {ns : List (Node σ)}
    (h : ∀ c ∈ ns, c.paths.Pairwise (· < ·)) : (pathsFrom index ns).Pairwise (· < ·) := by
  induction ns generalizing index with
  | nil => exact .nil
  | cons c rest ih =>
    rw [pathsFrom, List.pairwise_append]
    refine ⟨?_, ih fun d hd ↦ h d (List.mem_cons_of_mem _ hd), ?_⟩
    · rw [List.pairwise_map]
      exact (h c List.mem_cons_self).imp fun hlt ↦ List.cons_lt_cons_iff.mpr (.inr ⟨rfl, hlt⟩)
    · intro path hpath other hother
      obtain ⟨_, -, rfl⟩ := List.mem_map.mp hpath
      obtain ⟨i, _, _, -, -, rfl⟩ := mem_pathsFrom.mp hother
      exact List.cons_lt_cons_iff.mpr (.inl (by omega))

/-- The paths are in the order of their indices, so no place is there twice. -/
theorem paths_sorted (n : Node σ) : n.paths.Pairwise (· < ·) := by
  induction n using child_induction with
  | step n ih =>
    rw [paths_eq, List.pairwise_cons]
    refine ⟨fun path hpath ↦ ?_, sorted_pathsFrom ih⟩
    obtain ⟨i, _, rest, -, -, rfl⟩ := mem_pathsFrom.mp hpath
    exact List.nil_lt_cons _ _

private theorem nodup_paths (n : Node σ) : n.paths.Nodup := by
  refine n.paths_sorted.imp ?_
  rintro path _ hlt rfl
  exact List.lt_irrefl path hlt

/-- What stands in the places below some children is what they list in pre-order. -/
theorem map_at?_pathsFrom {n : Node σ} {ns : List (Node σ)} (before : List (Node σ))
    (hn : n.children = before ++ ns)
    (h : ∀ c ∈ ns, c.paths.map c.at? = c.preorder.map some) :
    (pathsFrom before.length ns).map n.at? = (preorders ns).map some := by
  induction ns generalizing before with
  | nil => rfl
  | cons c rest ih =>
    have hc : n.children[before.length]? = some c := by simp [hn]
    have hpath (path : List Nat) : n.at? (before.length :: path) = c.at? path := by
      rw [at?, hc, Option.bind_some]
    have hrest := ih (before ++ [c]) (by simp [hn])
      fun d hd ↦ h d (List.mem_cons_of_mem _ hd)
    rw [List.length_append, List.length_singleton] at hrest
    rw [pathsFrom, preorders, List.map_append, List.map_append, hrest, List.map_map]
    simp only [Function.comp_def, hpath]
    exact congrArg (· ++ _) (h c List.mem_cons_self)

/-- The pre-order lists what stands in each place. -/
theorem map_at?_paths (n : Node σ) : n.paths.map n.at? = n.preorder.map some := by
  induction n using child_induction with
  | step n ih =>
    rw [paths_eq, preorder_eq, List.map_cons, List.map_cons, at?]
    exact congrArg (_ :: ·) (map_at?_pathsFrom [] rfl ih)

/-- A node of the tree stands in some place. -/
theorem mem_preorder_iff {n m : Node σ} : m ∈ n.preorder ↔ ∃ path, n.at? path = some m := by
  refine ⟨fun hm ↦ ?_, fun ⟨_, h⟩ ↦ mem_preorder_of_at? h⟩
  have hsome : some m ∈ n.paths.map n.at? := by
    rw [map_at?_paths]
    exact List.mem_map_of_mem hm
  obtain ⟨path, -, hpath⟩ := List.mem_map.mp hsome
  exact ⟨path, hpath⟩

private theorem length_preorders {ns : List (Node σ)} (h : ∀ c ∈ ns, c.preorder.length = c.size) :
    (preorders ns).length = sizes ns := by
  induction ns with
  | nil => rfl
  | cons c rest ih =>
    rw [preorders, List.length_append, sizes, h c List.mem_cons_self,
      ih fun d hd ↦ h d (List.mem_cons_of_mem _ hd)]

/-- The pre-order has as many members as the subtree has nodes. -/
theorem length_preorder (n : Node σ) : n.preorder.length = n.size := by
  induction n using child_induction with
  | step n ih => rw [preorder_eq, List.length_cons, length_preorders ih, size_eq, Nat.add_comm]

/-- Whether the nodes in different places of a tree have different identifiers. -/
def Distinguished (n : Node σ) : Prop :=
  ∀ ⦃path path' m m'⦄, n.at? path = some m → n.at? path' = some m' → m.id = m'.id → path = path'

/-- They have just when no identifier is listed twice. -/
theorem nodup_ids_iff {n : Node σ} : n.ids.Nodup ↔ n.Distinguished := by
  have hids : n.paths.map (fun path ↦ (n.at? path).map Node.id) = n.ids.map some := by
    have h := congrArg (List.map (Option.map Node.id)) n.map_at?_paths
    rw [List.map_map, List.map_map] at h
    rw [ids, List.map_map]
    exact h
  have hnodup : n.ids.Nodup ↔ (n.ids.map some).Nodup :=
    (List.nodup_map_iff (Option.some_injective _)).symm
  rw [hnodup, ← hids, List.nodup_map_iff_inj_on n.nodup_paths]
  constructor
  · intro h path path' m m' hm hm' hid
    refine h path (mem_paths.mpr ⟨m, hm⟩) path' (mem_paths.mpr ⟨m', hm'⟩) ?_
    rw [hm, hm', Option.map_some, Option.map_some, hid]
  · intro h path hpath path' hpath' hid
    obtain ⟨m, hm⟩ := mem_paths.mp hpath
    obtain ⟨m', hm'⟩ := mem_paths.mp hpath'
    rw [hm, hm', Option.map_some, Option.map_some] at hid
    exact h hm hm' (Option.some.inj hid)

end Node

end BehaviorTree
