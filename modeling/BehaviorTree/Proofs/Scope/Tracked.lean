import BehaviorTree.Proofs.Scope.Log

/-!
# Stored scopes by the ledger

Below some scopes a subtree stores further ones. It is tracked by a ledger when each of them has the
entries that the ledger has for it, and hangs on the scope it will be used under, so that stepping
into it brings back what was left there.
-/

namespace BehaviorTree

variable {ο σ ω : Type}

/-- The entries of the stored scope; none if there is none yet. -/
def Memory.storedEntries (m : Memory) : Entries := (m.scope.map Scope.entries).getD ∅

private theorem Memory.Vacant.storedEntries {m : Memory} (h : m.Vacant) : m.storedEntries = ∅ := by
  unfold Memory.storedEntries
  cases hs : m.scope with
  | none => rfl
  | some s => exact h s hs

/-- The ledger behind the log in the world. -/
def Env.ledger (env : Env (ω × List Notice)) : Ledger := .of env.world.2

/-- Below a scope decorator, the ledger is the same. -/
@[simp] theorem Env.ledger_enter (env : Env (ω × List Notice)) (m : Memory) :
    (env.enter m).ledger = env.ledger := by
  rw [ledger, env.world_enter, ledger]

/-- Stepping into a scope that was used under the same blackboard brings back its entries. -/
theorem Env.contents_enter {env : Env ω} {m : Memory} (h : ∀ j ∈ m.enclosing, j = env.board.id) :
    (env.enter m).board.contents = m.storedEntries :: env.board.contents ∧
      ∀ s ∈ m.scope, s.id = (env.enter m).board.id := by
  have hkept : m.keptScope env.board.id = m.scope := by
    refine if_pos ?_
    rw [Option.all_eq_true]
    exact fun j hj ↦ beq_iff_eq.mpr (h j hj)
  unfold enter
  rw [hkept, Memory.storedEntries]
  cases m.scope with
  | none => exact ⟨rfl, fun s hs ↦ by cases hs⟩
  | some s =>
    refine ⟨rfl, fun t ht ↦ ?_⟩
    cases ht
    rfl

namespace Node

mutual

/-- Whether the leaves of a subtree have sites below some scopes, and its scope decorators store
what the ledger has for them, on a blackboard whose local scope is `i`. -/
def Tracked (l : Ledger) : Node (Site × σ) → (scopes : List NodeId) → (i : ScopeId) → Prop
  | leaf _ _ state, scopes, _ => state.1.scopes = scopes
  | composite _ _ _ _ children, scopes, i => TrackedAll l children scopes i
  | decorator _ _ _ _ none, _, _ => True
  | decorator tag life kind memory (some child), scopes, i =>
    match kind with
    | .scoped =>
      memory.storedEntries = (if life.started then l.scope tag.id else ∅) ∧
        (∀ j ∈ memory.enclosing, j = i) ∧
        ∀ j, (∀ s ∈ memory.scope, s.id = j) → Tracked l child (tag.id :: scopes) j
    | .invert | .succeeder | .loop _ => Tracked l child scopes i
termination_by structural n => n

/-- Whether several subtrees do. -/
def TrackedAll (l : Ledger) : List (Node (Site × σ)) → (scopes : List NodeId) → (i : ScopeId) → Prop
  | [], _, _ => True
  | c :: rest, scopes, i => Tracked l c scopes i ∧ TrackedAll l rest scopes i
termination_by structural ns => ns

end

variable {l l' : Ledger} {scopes : List NodeId} {i : ScopeId}

private theorem trackedAll_iff {ns : List (Node (Site × σ))} :
    TrackedAll l ns scopes i ↔ ∀ c ∈ ns, c.Tracked l scopes i := by
  induction ns with
  | nil => simp [TrackedAll]
  | cons c rest ih => simp [TrackedAll, ih]

/-- A composite is tracked exactly when its children are. -/
theorem tracked_composite {tag : Tag} {life : Life} {kind : CompositeKind} {resume : Nat}
    {children : List (Node (Site × σ))} :
    (composite tag life kind resume children).Tracked l scopes i ↔
      ∀ c ∈ children, c.Tracked l scopes i := trackedAll_iff

/-- A decorator that is not one of scope is tracked exactly when its child is. -/
theorem tracked_decorator_of_ne {tag : Tag} {life : Life} {kind : DecoratorKind} {memory : Memory}
    {child : Node (Site × σ)} (hk : kind ≠ .scoped) :
    (decorator tag life kind memory (some child)).Tracked l scopes i ↔
      child.Tracked l scopes i := by
  cases kind with
  | «scoped» => exact absurd rfl hk
  | invert => exact Iff.rfl
  | succeeder => exact Iff.rfl
  | loop limit => exact Iff.rfl

/-- A tracked subtree does not mind its lifecycle, as long as it is started or is not. -/
theorem Tracked.withLife {n : Node (Site × σ)} (h : n.Tracked l scopes i) {life : Life}
    (hl : life.started = n.started) : (n.withLife life).Tracked l scopes i := by
  cases n with
  | leaf => exact h
  | composite => exact h
  | decorator tag last kind memory child =>
    cases child with
    | none => trivial
    | some child =>
      by_cases hk : kind = .scoped
      · subst hk
        obtain ⟨hentries, henclosing, hchild⟩ := h
        refine ⟨?_, henclosing, hchild⟩
        rw [hl]
        exact hentries
      · rw [tracked_decorator_of_ne hk] at h
        exact (tracked_decorator_of_ne hk).mpr h

/-- A tracked subtree minds only the scopes of its own decorators. -/
theorem Tracked.congr {n : Node (Site × σ)} (h : n.Tracked l scopes i)
    (hl : ∀ k ∈ n.ids, l'.scope k = l.scope k) : n.Tracked l' scopes i := by
  induction n using child_induction generalizing scopes i with
  | step n ih =>
    have hbelow (c : Node (Site × σ)) (hc : c ∈ n.children) :
        ∀ k ∈ c.ids, l'.scope k = l.scope k := by
      intro k hk
      apply hl
      rw [ids_eq]
      exact List.mem_cons_of_mem _ (List.mem_flatMap_of_mem hc hk)
    cases n with
    | leaf => exact h
    | composite =>
      rw [tracked_composite] at h ⊢
      exact fun c hc ↦ ih c hc (h c hc) (hbelow c hc)
    | decorator tag life kind memory child =>
      cases child with
      | none => trivial
      | some child =>
        have hmem : child ∈ (decorator tag life kind memory (some child)).children := by
          simp [children]
        by_cases hk : kind = .scoped
        · subst hk
          obtain ⟨hentries, henclosing, hchild⟩ := h
          have htag : l'.scope tag.id = l.scope tag.id := hl tag.id (by rw [ids_eq]; exact .head _)
          refine ⟨?_, henclosing, fun j hj ↦ ih child hmem (hchild j hj) (hbelow child hmem)⟩
          rw [htag]
          exact hentries
        · rw [tracked_decorator_of_ne hk] at h ⊢
          exact ih child hmem h (hbelow child hmem)

/-- An unused subtree with its sites is tracked by any ledger. -/
theorem tracked_sited {n : Node σ} (h : n.AllUnused) : (n.sited scopes).Tracked l scopes i := by
  induction n using child_induction generalizing scopes i with
  | step n ih =>
    cases n with
    | leaf => rfl
    | composite =>
      rw [sited_composite, tracked_composite]
      intro c hc
      obtain ⟨d, hd, rfl⟩ := List.mem_map.mp hc
      exact ih d hd (h.below hd)
    | decorator tag life kind memory child =>
      cases child with
      | none => trivial
      | some child =>
        have hmem : child ∈ (decorator tag life kind memory (some child)).children := by
          simp [children]
        obtain ⟨rfl, -, henclosing, hvacant⟩ := h.here
        cases kind with
        | «scoped» =>
          refine ⟨hvacant.storedEntries, fun j hj ↦ ?_, fun j _ ↦ ih child hmem (h.below hmem)⟩
          rw [henclosing] at hj
          cases hj
        | invert => exact ih child hmem (h.below hmem)
        | succeeder => exact ih child hmem (h.below hmem)
        | loop limit => exact ih child hmem (h.below hmem)

/-- A started scope decorator anywhere in a tracked subtree stores what the ledger has for it. -/
theorem Tracked.stored {n : Node (Site × σ)} (h : n.Tracked l scopes i) {tag : Tag} {life : Life}
    {memory : Memory} {child : Node (Site × σ)}
    (hm : decorator tag life .scoped memory (some child) ∈ n.preorder) (hs : life.started = true) :
    memory.storedEntries = l.scope tag.id := by
  induction n using child_induction generalizing scopes i with
  | step n ih =>
    rw [preorder_eq] at hm
    rcases List.mem_cons.mp hm with rfl | hm
    · have hentries := h.1
      rwa [if_pos hs] at hentries
    · obtain ⟨c, hc, hmc⟩ := mem_preorders.mp hm
      cases n with
      | leaf => cases hc
      | composite => exact ih c hc (tracked_composite.mp h c hc) hmc
      | decorator tag' life' kind memory' child' =>
        cases child' with
        | none => cases hc
        | some child' =>
          obtain rfl : c = child' := by simpa [children] using hc
          by_cases hk : kind = .scoped
          · subst hk
            cases hscope : memory'.scope with
            | none => exact ih c hc (h.2.2 ⟨0⟩ (by simp [hscope])) hmc
            | some s => exact ih c hc (h.2.2 s.id (by simp [hscope])) hmc
          · exact ih c hc ((tracked_decorator_of_ne hk).mp h) hmc

end Node

end BehaviorTree
