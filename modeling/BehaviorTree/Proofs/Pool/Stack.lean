import BehaviorTree.Pool
import BehaviorTree.Proofs.Scope.Identity

/-!
# The stacks of a pool

A pool is read and changed one stack at a time. Whatever is summed over all free nodes changes by
what the stack changes by, such as the count of the scopes that free nodes store.
-/

namespace BehaviorTree

variable {σ : Type}

namespace Pool

/-- Another stack changes that of its identifier only. -/
@[simp] theorem stack_withStack (p : Pool σ) (id other : NodeId) (ns : List (Node σ)) :
    (p.withStack id ns).stack other = if id = other then ns else p.stack other := by
  simp only [stack, withStack, Std.ExtTreeMap.getD_insert, Std.LawfulEqCmp.compare_eq_iff_eq]

/-- The stacks of all identifiers but one. -/
def beside (p : Pool σ) (id : NodeId) : List (NodeId × List (Node σ)) :=
  p.free.toList.filter fun entry ↦ entry.1 ≠ id

/-- How many free nodes store the scope with an identity. -/
def stores (p : Pool σ) (i : ScopeId) : Nat :=
  (p.free.toList.map fun entry ↦ Node.storesAll entry.2 i).sum

private theorem nodup_stacks (p : Pool σ) : p.free.toList.Nodup :=
  Std.ExtTreeMap.distinct_keys_toList.imp fun h he ↦ h (by rw [he]; exact Std.ReflCmp.compare_self)

private theorem mem_beside {p : Pool σ} {id key : NodeId} {ns : List (Node σ)} :
    (key, ns) ∈ p.beside id ↔ key ≠ id ∧ p.free[key]? = some ns := by
  rw [beside, List.mem_filter, Std.ExtTreeMap.mem_toList_iff_getElem?_eq_some]
  simp [and_comm]

/-- A stack and the others make up the pool. -/
theorem perm_beside (p : Pool σ) (id : NodeId) :
    p.free.toList.Perm ((p.free[id]?.toList.map fun ns ↦ (id, ns)) ++ p.beside id) := by
  refine (List.perm_ext_iff_of_nodup p.nodup_stacks ?_).mpr ?_
  · refine List.nodup_append.mpr ⟨?_, p.nodup_stacks.filter _, ?_⟩
    · cases p.free[id]? <;> simp
    · intro a ha b hb
      obtain ⟨ns, -, rfl⟩ := List.mem_map.mp ha
      rintro rfl
      exact (mem_beside.mp hb).1 rfl
  · rintro ⟨key, ns⟩
    rw [List.mem_append, mem_beside, Std.ExtTreeMap.mem_toList_iff_getElem?_eq_some]
    by_cases hk : key = id
    · subst hk
      simp [Option.mem_toList]
    · simp [hk, Ne.symm hk, Option.mem_toList]

private theorem beside_withStack (p : Pool σ) (id : NodeId) (ns : List (Node σ)) :
    ((p.withStack id ns).beside id).Perm (p.beside id) := by
  refine (List.perm_ext_iff_of_nodup ?_ ?_).mpr ?_
  · exact (p.withStack id ns).nodup_stacks.filter _
  · exact p.nodup_stacks.filter _
  · rintro ⟨key, ms⟩
    rw [mem_beside, mem_beside]
    refine and_congr_right fun hk ↦ ?_
    rw [withStack, Std.ExtTreeMap.getElem?_insert]
    simp [Ne.symm hk]

/-! ### Sums over all stacks -/

/-- A sum over all stacks. -/
def sumStacks (f : List (Node σ) → Nat) (p : Pool σ) : Nat :=
  (p.free.toList.map fun entry ↦ f entry.2).sum

variable {f : List (Node σ) → Nat}

private theorem sumStacks_eq (hf : f [] = 0) (p : Pool σ) (id : NodeId) :
    p.sumStacks f = f (p.stack id) + ((p.beside id).map fun entry ↦ f entry.2).sum := by
  rw [sumStacks, ((p.perm_beside id).map _).sum_nat, List.map_append, List.sum_append, stack,
    Std.ExtTreeMap.getD_eq_getD_getElem?]
  cases p.free[id]? <;> simp [hf]

/-- Another stack for an identifier changes a sum by what the stack changes by. -/
theorem sumStacks_withStack (hf : f [] = 0) (p : Pool σ) (id : NodeId) (ns : List (Node σ)) :
    (p.withStack id ns).sumStacks f + f (p.stack id) = p.sumStacks f + f ns := by
  rw [sumStacks_eq hf _ id, sumStacks_eq hf p id, ((p.beside_withStack id ns).map _).sum_nat,
    stack_withStack, if_pos rfl]
  omega

/-- Another stack for an identifier changes the count by what the stack changes by. -/
theorem stores_withStack (p : Pool σ) (id : NodeId) (ns : List (Node σ)) (i : ScopeId) :
    (p.withStack id ns).stores i + Node.storesAll (p.stack id) i =
      p.stores i + Node.storesAll ns i :=
  sumStacks_withStack (f := (Node.storesAll · i)) rfl p id ns

end Pool

end BehaviorTree
