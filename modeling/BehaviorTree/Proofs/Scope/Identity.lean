import BehaviorTree.Node.Stop
import BehaviorTree.Proofs.Node.Everywhere
import Mathlib.Algebra.GroupWithZero.Nat

/-!
# Scope identities

Identities of scopes are given out in order and never again. So nowhere is a scope stored that was
not given out, and none is stored twice. Both are said by counting, for each identity, the
memories that store a scope with it.
-/

namespace BehaviorTree

variable {σ ω : Type}

/-- Whether each identity is counted at most once, and only if it was given out before `fresh`. -/
def Distinct (fresh : ScopeId) (stores : ScopeId → Nat) : Prop :=
  ∀ i, stores i ≤ if i.number < fresh.number then 1 else 0

/-- Whether a memory stores the scope with an identity. -/
def Memory.stores (m : Memory) (i : ScopeId) : Nat :=
  match m.scope with
  | none => 0
  | some s => if s.id = i then 1 else 0

/-- A summand is at most the sum. -/
theorem le_sum_map {α : Type} (f : α → Nat) {a : α} {as : List α} (h : a ∈ as) :
    f a ≤ (as.map f).sum := by
  induction as with
  | nil => cases h
  | cons b rest ih =>
    rw [List.map_cons, List.sum_cons]
    rcases List.mem_cons.mp h with rfl | h
    · omega
    · have := ih h
      omega

namespace Node

/-- Whether the node itself stores the scope with an identity. -/
def ownStores (n : Node σ) (i : ScopeId) : Nat :=
  match n with
  | decorator _ _ _ memory _ => memory.stores i
  | _ => 0

/-- How many nodes of the subtree store the scope with an identity. -/
def stores (n : Node σ) (i : ScopeId) : Nat := (n.preorder.map (ownStores · i)).sum

/-- How many nodes of several subtrees store the scope with an identity. -/
def storesAll (ns : List (Node σ)) (i : ScopeId) : Nat := (ns.map (stores · i)).sum

/-- A list without nodes stores no scope. -/
@[simp] theorem storesAll_nil (i : ScopeId) : storesAll ([] : List (Node σ)) i = 0 := rfl

/-- The first node and the others store together what all of them do. -/
@[simp] theorem storesAll_cons (c : Node σ) (rest : List (Node σ)) (i : ScopeId) :
    storesAll (c :: rest) i = c.stores i + storesAll rest i := rfl

/-- Two lists of nodes store together what each of them does. -/
@[simp] theorem storesAll_append (as bs : List (Node σ)) (i : ScopeId) :
    storesAll (as ++ bs) i = storesAll as i + storesAll bs i := by
  simp [storesAll]

/-- A node of a list stores no scope more often than all of them. -/
theorem stores_le_storesAll {c : Node σ} {ns : List (Node σ)} (h : c ∈ ns) (i : ScopeId) :
    c.stores i ≤ storesAll ns i := le_sum_map (stores · i) h

/-- What a node of a subtree stores, the subtree stores. -/
theorem ownStores_le_stores {m n : Node σ} (h : m ∈ n.preorder) (i : ScopeId) :
    m.ownStores i ≤ n.stores i := le_sum_map (ownStores · i) h

private theorem sum_preorders (ns : List (Node σ)) (i : ScopeId) :
    ((preorders ns).map (ownStores · i)).sum = storesAll ns i := by
  induction ns with
  | nil => rfl
  | cons c rest ih => rw [preorders, List.map_append, List.sum_append, ih]; rfl

/-- The scopes of a subtree are the node's own and those below it. -/
theorem stores_eq (n : Node σ) (i : ScopeId) :
    n.stores i = n.ownStores i + storesAll n.children i := by
  rw [stores, preorder_eq, List.map_cons, List.sum_cons, sum_preorders]

/-- A leaf stores no scope. -/
@[simp] theorem stores_leaf (tag : Tag) (life : Life) (state : σ) (i : ScopeId) :
    (leaf tag life state).stores i = 0 := rfl

/-- A composite stores what its children do. -/
@[simp] theorem stores_composite (tag : Tag) (life : Life) (kind : CompositeKind) (resume : Nat)
    (children : List (Node σ)) (i : ScopeId) :
    (composite tag life kind resume children).stores i = storesAll children i := by
  rw [stores_eq]
  exact Nat.zero_add _

/-- A decorator stores what its memory and its child do. -/
theorem stores_decorator (tag : Tag) (life : Life) (kind : DecoratorKind) (memory : Memory)
    (child : Option (Node σ)) (i : ScopeId) :
    (decorator tag life kind memory child).stores i =
      memory.stores i + storesAll child.toList i :=
  stores_eq _ i

/-- A decorator without a child stores what its memory does. -/
@[simp] theorem stores_decorator_none (tag : Tag) (life : Life) (kind : DecoratorKind)
    (memory : Memory) (i : ScopeId) :
    (decorator tag life kind memory (none : Option (Node σ))).stores i = memory.stores i := by
  simp [stores_decorator]

/-- A decorator with a child stores what its memory and that child do. -/
@[simp] theorem stores_decorator_some (tag : Tag) (life : Life) (kind : DecoratorKind)
    (memory : Memory) (child : Node σ) (i : ScopeId) :
    (decorator tag life kind memory (some child)).stores i = memory.stores i + child.stores i := by
  simp [stores_decorator]

/-- Another life leaves the stored scopes. -/
@[simp] theorem stores_withLife (n : Node σ) (life : Life) (i : ScopeId) :
    (n.withLife life).stores i = n.stores i := by
  cases n <;> simp [withLife, stores_decorator]

end Node

/-! ### Giving out identities -/

/-- Scopes of which none is stored more often are still distinct. -/
theorem Distinct.of_le {fresh : ScopeId} {stores stores' : ScopeId → Nat}
    (h : Distinct fresh stores) (hs : ∀ i, stores' i ≤ stores i) : Distinct fresh stores' :=
  fun i ↦ Nat.le_trans (hs i) (h i)

/-- Identities stay given out. -/
theorem Distinct.mono {fresh later : ScopeId} {stores : ScopeId → Nat} (h : Distinct fresh stores)
    (hl : fresh.number ≤ later.number) : Distinct later stores := by
  intro i
  have hi := h i
  split at hi <;> split <;> omega

/-- An identity that is counted once was given out, and is not counted anywhere else. -/
theorem Distinct.eq_zero {fresh : ScopeId} {stores : ScopeId → Nat} {a : ScopeId}
    (h : Distinct fresh fun i ↦ (if a = i then 1 else 0) + stores i) :
    a.number < fresh.number ∧ stores a = 0 := by
  have ha := h a
  simp only [if_true] at ha
  split at ha <;> omega

/-- The next identity is not counted yet. -/
theorem Distinct.next {fresh : ScopeId} {stores : ScopeId → Nat} (h : Distinct fresh stores) :
    Distinct fresh.next fun i ↦ (if fresh = i then 1 else 0) + stores i := by
  intro i
  have hi := h i
  have hnext : fresh.next.number = fresh.number + 1 := rfl
  show (if fresh = i then 1 else 0) + stores i ≤ _
  by_cases he : fresh = i
  · subst he
    simp only [Nat.lt_irrefl, if_false] at hi
    rw [if_pos rfl, if_pos (by omega)]
    omega
  · have hne : fresh.number ≠ i.number := fun hn ↦ he (congrArg ScopeId.mk hn)
    simp only [he, if_false]
    split at hi <;> split <;> omega

/-- A memory that keeps a scope stores that one. -/
theorem Memory.stores_keep (m : Memory) (enclosing : ScopeId) (s : Scope) (i : ScopeId) :
    (m.keep enclosing s).stores i = if s.id = i then 1 else 0 := rfl

/-- Clearing a stored scope keeps its identity. -/
@[simp] theorem Memory.stores_cleared (m : Memory) (i : ScopeId) :
    Memory.stores { m with scope := m.scope.map Scope.cleared } i = m.stores i := by
  cases h : m.scope <;> simp [stores, h, Scope.cleared]

/-- Stepping into a scope takes the stored one or a new one, in front of the same blackboard. -/
theorem Env.enter_cases (env : Env ω) (m : Memory) :
    (∃ s, m.scope = some s ∧ m.keptScope env.board.id = some s ∧
      env.enter m = { env with board := .under s env.board }) ∨
    (m.keptScope env.board.id = none ∧ env.enter m =
      { env with board := .under (.empty env.fresh) env.board, fresh := env.fresh.next }) := by
  unfold enter
  cases hk : m.keptScope env.board.id with
  | none => exact .inr ⟨rfl, rfl⟩
  | some s =>
    refine .inl ⟨s, ?_, rfl, rfl⟩
    unfold Memory.keptScope at hk
    split at hk
    · exact hk
    · cases hk

/-- Going below a scope decorator takes no identity back. -/
theorem Env.fresh_le_enter (env : Env ω) (m : Memory) :
    env.fresh.number ≤ (env.enter m).fresh.number := by
  rcases env.enter_cases m with ⟨s, -, -, he⟩ | ⟨-, he⟩
  · exact Nat.le_of_eq (by rw [he])
  · rw [he]
    exact Nat.le_succ _

/-- Stepping into a scope trades the stored scope for the one in use. -/
theorem Distinct.enter {env : Env ω} {m : Memory} {stores : ScopeId → Nat}
    (h : Distinct env.fresh fun i ↦ m.stores i + stores i) :
    Distinct (env.enter m).fresh fun i ↦
      (if (env.enter m).board.id = i then 1 else 0) + stores i := by
  rcases env.enter_cases m with ⟨s, hs, -, he⟩ | ⟨-, he⟩
  · rw [he]
    refine h.of_le fun i ↦ ?_
    simp only [Memory.stores, hs]
    exact Nat.le_refl _
  · rw [he]
    exact (h.of_le fun i ↦ Nat.le_add_left _ _).next

end BehaviorTree
