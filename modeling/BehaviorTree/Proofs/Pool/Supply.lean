import BehaviorTree.Proofs.Node.Recast
import BehaviorTree.Proofs.Pool.Stack

/-!
# What a pool supplies

A pool hands out unused shells of the nodes it is asked for, takes nodes back one by one, and never
makes up a scope: each scope that a free node stores came back with a node, and leaves with one.
-/

namespace BehaviorTree

variable {σ : Type}

/-- A scrubbed memory has no entries. -/
theorem Memory.vacant_scrubbed (m : Memory) : m.scrubbed.Vacant := by
  intro s hs
  obtain ⟨t, -, rfl⟩ := Option.map_eq_some_iff.mp hs
  rfl

/-- Scrubbing keeps the stored scope. -/
@[simp] theorem Memory.stores_scrubbed (m : Memory) (i : ScopeId) :
    m.scrubbed.stores i = m.stores i := by
  cases h : m.scope <;> simp [stores, scrubbed, h, Scope.cleared]

namespace Node

/-- Whether a node is an unused shell of another one, apart from a vacant scope it may store. -/
structure ShellOf (n model : Node σ) : Prop where
  unused : n.AllUnused
  frame : n.frame (fun s ↦ s) = model.shell

/-- How many scopes with an identity come with a result. -/
def storesOk {ε : Type} (r : Except ε (Node σ)) (i : ScopeId) : Nat :=
  match r with
  | .ok n => n.stores i
  | .error _ => 0

/-- The scopes that come with a result are those of the node in it, if there is one. -/
theorem storesAll_toOption {ε : Type} (r : Except ε (Node σ)) (i : ScopeId) :
    storesAll r.toOption.toList i = storesOk r i := by
  cases r <;> rfl

private theorem shellOf_shell (model : Node σ) : model.shell.ShellOf model := by
  refine ⟨everywhere_iff.mpr ?_, ?_⟩
  · cases model with
    | leaf => exact ⟨rfl, fun c hc ↦ by cases hc⟩
    | composite => exact ⟨⟨rfl, rfl⟩, fun c hc ↦ by cases hc⟩
    | decorator => exact ⟨⟨rfl, rfl, rfl, Memory.vacant_fresh⟩, fun c hc ↦ by cases hc⟩
  · cases model <;> simp [shell, frame]

private theorem shellOf_renewed (recycled model : Node σ) :
    (recycled.renewed model).ShellOf model := by
  cases recycled with
  | leaf => exact shellOf_shell model
  | composite => exact shellOf_shell model
  | decorator =>
    cases model with
    | leaf tag life state => exact shellOf_shell (leaf tag life state)
    | composite tag life kind resume children =>
      exact shellOf_shell (composite tag life kind resume children)
    | decorator =>
      refine ⟨everywhere_iff.mpr ⟨⟨rfl, rfl, rfl, Memory.vacant_scrubbed _⟩, ?_⟩, ?_⟩
      · rintro c ⟨⟩
      · simp [renewed, shell, frame]

private theorem stores_shell (model : Node σ) (i : ScopeId) : model.shell.stores i = 0 := by
  cases model <;> simp [shell, Memory.stores, Memory.fresh]

private theorem stores_renewed_le (recycled model : Node σ) (i : ScopeId) :
    (recycled.renewed model).stores i ≤ recycled.stores i := by
  have hshell : model.shell.stores i ≤ recycled.stores i := by
    rw [stores_shell]
    exact Nat.zero_le _
  cases recycled with
  | leaf => exact hshell
  | composite => exact hshell
  | decorator =>
    cases model with
    | leaf => exact hshell
    | composite => exact hshell
    | decorator => simp [renewed, stores_decorator]

private theorem stores_scrubbed (n : Node σ) (i : ScopeId) :
    n.scrubbed.stores i = n.ownStores i := by
  cases n with
  | leaf => rfl
  | composite => simp [scrubbed, ownStores]
  | decorator => simp [scrubbed, ownStores]

end Node

namespace Pool

/-- Whether each free node lies in the stack of its identifier. -/
def Keyed (p : Pool σ) : Prop := ∀ id, ∀ n ∈ p.stack id, n.id = id

/-- An empty pool has each free node in its stack. -/
theorem keyed_empty (maxFree : Nat) : (empty maxFree : Pool σ).Keyed := by
  intro id n hn
  simp [empty, stack] at hn

/-- A stack of nodes with its identifier keeps each free node in its stack. -/
theorem Keyed.withStack {p : Pool σ} (h : p.Keyed) {id : NodeId} {ns : List (Node σ)}
    (hn : ∀ n ∈ ns, n.id = id) : (p.withStack id ns).Keyed := by
  intro other n hm
  rw [stack_withStack] at hm
  split at hm
  · next he => rw [hn n hm, he]
  · exact h other n hm

/-- An empty pool stores no scope. -/
@[simp] theorem stores_empty (maxFree : Nat) (i : ScopeId) :
    (empty maxFree : Pool σ).stores i = 0 := by
  have hnil : (empty maxFree : Pool σ).free.toList = [] :=
    Std.ExtTreeMap.toList_eq_nil_iff.mpr rfl
  rw [stores, hnil]
  rfl

/-! ### Handing out -/

/-- What comes of asking a pool for a shell. -/
structure Supplied (p : Pool σ) (model : Node σ) (r : Except CloneError (Node σ) × Pool σ) :
    Prop where
  shell : ∀ n, r.1 = .ok n → n.ShellOf model
  stores : ∀ i, Node.storesOk r.1 i + r.2.stores i ≤ p.stores i
  keyed : p.Keyed → (∃ n, r.1 = .ok n) ∧ r.2.Keyed

/-- A pool hands out unused shells, and gives out with them no more scopes than it had. -/
theorem supplied_acquire (p : Pool σ) (model : Node σ) : p.Supplied model (p.acquire model) := by
  unfold acquire
  cases hs : p.stack model.id with
  | nil =>
    refine ⟨?_, fun i ↦ ?_, fun h ↦ ⟨⟨_, rfl⟩, h⟩⟩
    · rintro n ⟨⟩
      exact Node.shellOf_shell model
    · exact Nat.le_of_eq (by rw [Node.storesOk, Node.stores_shell, Nat.zero_add]; rfl)
  | cons n rest =>
    have hstores (i : ScopeId) :
        n.stores i + (p.withStack model.id rest).stores i = p.stores i := by
      have hi := p.stores_withStack model.id rest i
      rw [hs, Node.storesAll_cons] at hi
      omega
    by_cases hid : n.id = model.id
    · simp only [hid, if_true]
      refine ⟨?_, fun i ↦ ?_, fun h ↦ ⟨⟨_, rfl⟩, h.withStack fun m hm ↦ ?_⟩⟩
      · rintro m ⟨⟩
        exact Node.shellOf_renewed n model
      · have hr := n.stores_renewed_le model i
        have hi := hstores i
        show (n.renewed model).stores i + (p.withStack model.id rest).stores i ≤ _
        omega
      · exact h model.id m (by rw [hs]; exact List.mem_cons_of_mem _ hm)
    · simp only [hid, if_false]
      refine ⟨?_, fun i ↦ ?_, fun h ↦ ?_⟩
      · rintro m ⟨⟩
      · have hi := hstores i
        show 0 + (p.withStack model.id rest).stores i ≤ _
        omega
      · exact absurd (h model.id n (by rw [hs]; exact List.mem_cons_self)) hid

/-! ### Taking back -/

private theorem returnOrder_eq (n : Node σ) : returnOrder n = n :: returnOrders n.children := by
  cases n with
  | leaf => simp [returnOrder, Node.children, returnOrders]
  | composite => simp [returnOrder, Node.children]
  | decorator _ _ _ _ child => cases child <;> simp [returnOrder, Node.children, returnOrders]

private theorem returnOrders_perm {ns : List (Node σ)}
    (ih : ∀ c ∈ ns, (returnOrder c).Perm c.preorder) :
    (returnOrders ns).Perm (Node.preorders ns) := by
  induction ns with
  | nil => exact .refl _
  | cons c rest rest_ih =>
    rw [returnOrders, Node.preorders]
    refine List.perm_append_comm.trans ?_
    exact (ih c (by simp)).append (rest_ih fun d hd ↦ ih d (by simp [hd]))

/-- Each node of a subtree comes back once. -/
theorem returnOrder_perm (n : Node σ) : (returnOrder n).Perm n.preorder := by
  induction n using Node.child_induction with
  | step n ih =>
    rw [returnOrder_eq, Node.preorder_eq]
    exact (returnOrders_perm ih).cons n

private theorem stores_put_le (p : Pool σ) (n : Node σ) (i : ScopeId) :
    (p.put n).stores i ≤ p.stores i + n.ownStores i := by
  unfold put
  split
  · have hi := p.stores_withStack n.id (n.scrubbed :: p.stack n.id) i
    rw [Node.storesAll_cons, Node.stores_scrubbed] at hi
    show (p.withStack n.id (n.scrubbed :: p.stack n.id)).stores i ≤ _
    omega
  · exact Nat.le_add_right _ _

private theorem Keyed.put {p : Pool σ} (h : p.Keyed) (n : Node σ) : (p.put n).Keyed := by
  unfold Pool.put
  split
  · refine h.withStack fun m hm ↦ ?_
    rcases List.mem_cons.mp hm with rfl | hm
    · exact congrArg Tag.id n.tag_scrubbed
    · exact h n.id m hm
  · exact h

/-- Taking back a subtree adds no more scopes to the pool than the subtree stores. -/
theorem stores_release_le (p : Pool σ) (n : Node σ) (i : ScopeId) :
    (p.release n).stores i ≤ p.stores i + n.stores i := by
  have hfold (ns : List (Node σ)) (p : Pool σ) :
      (ns.foldl put p).stores i ≤ p.stores i + (ns.map (Node.ownStores · i)).sum := by
    induction ns generalizing p with
    | nil => exact Nat.le_refl _
    | cons n rest ih =>
      have hput := p.stores_put_le n i
      have hrest := ih (p.put n)
      rw [List.foldl_cons, List.map_cons, List.sum_cons]
      omega
  have hperm := ((returnOrder_perm n).map (Node.ownStores · i)).sum_nat
  rw [Node.stores, ← hperm]
  exact hfold (returnOrder n) p

/-- A release keeps each free node in its stack. -/
theorem Keyed.release {p : Pool σ} (h : p.Keyed) (n : Node σ) : (p.release n).Keyed := by
  have hfold (ns : List (Node σ)) (p : Pool σ) (h : p.Keyed) : (ns.foldl Pool.put p).Keyed := by
    induction ns generalizing p with
    | nil => exact h
    | cons n rest ih => exact ih (p.put n) (h.put n)
  exact hfold (returnOrder n) p h

/-! ### Stocking up -/

private theorem stores_fill (p : Pool σ) (copies : Nat) (model : Node σ) (i : ScopeId) :
    (p.fill copies model).stores i = p.stores i := by
  have hshells (k : Nat) : Node.storesAll (List.replicate k model.shell) i = 0 := by
    induction k with
    | zero => rfl
    | succ k ih => rw [List.replicate_succ, Node.storesAll_cons, Node.stores_shell, ih]
  unfold fill
  have hi := p.stores_withStack model.id (List.replicate (min copies p.maxFree -
    p.freeCount model.id) model.shell ++ p.stack model.id) i
  rw [Node.storesAll_append, hshells] at hi
  simp only
  omega

private theorem Keyed.fill {p : Pool σ} (h : p.Keyed) (copies : Nat) (model : Node σ) :
    (p.fill copies model).Keyed := by
  refine h.withStack fun m hm ↦ ?_
  rcases List.mem_append.mp hm with hm | hm
  · rw [List.eq_of_mem_replicate hm]
    exact congrArg Tag.id model.tag_shell
  · exact h model.id m hm

/-- Prewarming stores no scope. -/
theorem stores_prewarm (p : Pool σ) (root : Node σ) (copies : Nat) (i : ScopeId) :
    (p.prewarm root copies).stores i = p.stores i := by
  unfold prewarm
  generalize (Walk.start root).toList = ns
  induction ns generalizing p with
  | nil => rfl
  | cons n rest ih => rw [List.foldl_cons, ih, stores_fill]

/-- Prewarming keeps each free node in its stack. -/
theorem Keyed.prewarm {p : Pool σ} (h : p.Keyed) (root : Node σ) (copies : Nat) :
    (p.prewarm root copies).Keyed := by
  unfold Pool.prewarm
  generalize (Walk.start root).toList = ns
  induction ns generalizing p with
  | nil => exact h
  | cons n rest ih => exact ih (h.fill copies n)

/-- A cleared pool stores no scope. -/
theorem stores_clear (p : Pool σ) (i : ScopeId) : p.clear.stores i = 0 :=
  stores_empty p.maxFree i

/-- Clearing keeps each free node in its stack. -/
theorem Keyed.clear (p : Pool σ) : p.clear.Keyed := keyed_empty p.maxFree

end Pool

end BehaviorTree
