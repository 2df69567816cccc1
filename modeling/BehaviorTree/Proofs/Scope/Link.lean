import BehaviorTree.Node.Evaluate
import BehaviorTree.Proofs.Node.Unused
import BehaviorTree.Proofs.Scope.Identity
import Mathlib.Data.List.Forall2

/-!
# Scopes that stand for each other

Two runs may use different identities for scopes with the same entries. A link says which scope of
the one run stands for which scope of the other; it only grows, and it never gives a scope two
partners. Blackboards are alike when they agree up to the link, and so are memories, where a vacant
memory may store a scope that has no partner yet, or none at all.
-/

namespace BehaviorTree

variable {ω : Type}

/-- Which scopes of one run stand for which scopes of another. -/
def Link : Type := ScopeId → ScopeId → Prop

namespace Link

/-- Whether no scope has two partners. -/
structure Matching (r : Link) : Prop where
  left : ∀ {i j k}, r i j → r i k → j = k
  right : ∀ {i j k}, r i k → r j k → i = j

/-- Whether only scopes that were given out have partners. -/
def Used (r : Link) (fresh fresh' : ScopeId) : Prop :=
  ∀ {i j}, r i j → i.number < fresh.number ∧ j.number < fresh'.number

/-- Whether a link says all that another one says. -/
def Extends (r₁ r : Link) : Prop := ∀ {i j}, r i j → r₁ i j

/-- Whether neither of two scopes has a partner. -/
def Open (r : Link) (i j : ScopeId) : Prop := (∀ k, ¬ r i k) ∧ ∀ k, ¬ r k j

/-- Makes two scopes partners. -/
def insert (r : Link) (a b : ScopeId) : Link := fun i j ↦ r i j ∨ (i = a ∧ j = b)

/-- A link extends itself. -/
theorem Extends.refl (r : Link) : r.Extends r := fun h ↦ h

/-- An extension of an extension is an extension. -/
theorem Extends.trans {r r₁ r₂ : Link} (h : r₂.Extends r₁) (h' : r₁.Extends r) : r₂.Extends r :=
  fun hr ↦ h (h' hr)

/-- A link with one more pair says all that it said. -/
theorem extends_insert (r : Link) (a b : ScopeId) : (r.insert a b).Extends r := .inl

/-- A link with one more pair links the two. -/
theorem insert_self (r : Link) (a b : ScopeId) : r.insert a b a b := .inr ⟨rfl, rfl⟩

/-- Scopes that were given out still are when more of them are. -/
theorem Used.mono {r : Link} {fresh fresh' later later' : ScopeId} (h : r.Used fresh fresh')
    (hl : fresh.number ≤ later.number) (hl' : fresh'.number ≤ later'.number) :
    r.Used later later' :=
  fun hr ↦ ⟨Nat.lt_of_lt_of_le (h hr).1 hl, Nat.lt_of_lt_of_le (h hr).2 hl'⟩

/-- A link with one more pair of scopes that were given out links only such. -/
theorem Used.insert {r : Link} {fresh fresh' a b : ScopeId} (h : r.Used fresh fresh')
    (ha : a.number < fresh.number) (hb : b.number < fresh'.number) :
    (r.insert a b).Used fresh fresh' := by
  rintro i j (hij | ⟨rfl, rfl⟩)
  · exact h hij
  · exact ⟨ha, hb⟩

/-- Scopes without partners can become partners. -/
theorem Matching.insert {r : Link} {a b : ScopeId} (h : r.Matching) (ho : r.Open a b) :
    (r.insert a b).Matching where
  left := by
    rintro i j k (hj | ⟨rfl, rfl⟩) (hk | ⟨hi, rfl⟩)
    · exact h.left hj hk
    · subst hi
      exact absurd hj (ho.1 _)
    · exact absurd hk (ho.1 _)
    · rfl
  right := by
    rintro i j k (hi | ⟨rfl, rfl⟩) (hj | ⟨rfl, hk⟩)
    · exact h.right hi hj
    · subst hk
      exact absurd hi (ho.2 _)
    · exact absurd hj (ho.2 _)
    · rfl

private theorem Matching.eq_iff {r : Link} (h : r.Matching) {i i' j j' : ScopeId} (hr : r i i')
    (hr' : r j j') : i = j ↔ i' = j' := by
  constructor
  · rintro rfl
    exact h.left hr hr'
  · rintro rfl
    exact h.right hr hr'

end Link

/-! ### Boards -/

/-- The entries of each scope of a blackboard, local ones first. -/
def Blackboard.contents (b : Blackboard) : List Entries := b.scopes.map Scope.entries

/-- Whether two scopes stand for each other and have the same entries. -/
def Scope.Alike (r : Link) (s s' : Scope) : Prop := r s.id s'.id ∧ s.entries = s'.entries

/-- Whether two blackboards agree scope by scope. -/
def Blackboard.Alike (r : Link) (b b' : Blackboard) : Prop :=
  List.Forall₂ (Scope.Alike r) b.scopes b'.scopes

section

variable {r r₁ : Link} {b b' : Blackboard} {s s' : Scope}

/-- Scopes that are alike stay so when more is linked. -/
theorem Scope.Alike.mono (h : s.Alike r s') (hr : r₁.Extends r) : s.Alike r₁ s' :=
  ⟨hr h.1, h.2⟩

/-- Scopes that stand for each other one by one have the same entries. -/
theorem Scope.map_entries_eq {ss ss' : List Scope} (h : List.Forall₂ (Scope.Alike r) ss ss') :
    ss.map Scope.entries = ss'.map Scope.entries := by
  induction h with
  | nil => rfl
  | cons hs _ ih => rw [List.map_cons, List.map_cons, hs.2, ih]

namespace Blackboard.Alike

/-- Blackboards that are alike stay so when more is linked. -/
theorem mono (h : b.Alike r b') (hr : r₁.Extends r) : b.Alike r₁ b' :=
  List.Forall₂.imp (fun _ _ hs ↦ hs.mono hr) h

/-- Local scopes of boards that are alike are alike. -/
theorem scope (h : b.Alike r b') : b.scope.Alike r b'.scope := (List.forall₂_cons.mp h).1

/-- Blackboards that are alike have the same entries in their scopes. -/
theorem contents (h : b.Alike r b') : b.contents = b'.contents := Scope.map_entries_eq h

/-- The same local entries leave blackboards alike. -/
theorem withEntries (h : b.Alike r b') (e : Entries) :
    (b.withEntries e).Alike r (b'.withEntries e) :=
  .cons ⟨h.scope.1, rfl⟩ (List.forall₂_cons.mp h).2

/-- Scopes that are alike put in front leave blackboards alike. -/
theorem under (h : b.Alike r b') (hs : s.Alike r s') :
    (Blackboard.under s b).Alike r (Blackboard.under s' b') :=
  .cons hs h

end Blackboard.Alike

end

/-! ### Memories -/

/-- Whether two memories agree: both store scopes that stand for each other and were last used
under scopes that do, or both are vacant and what they store has no partner. -/
inductive Memory.Alike (r : Link) (m m' : Memory) : Prop where
  | vacant (hm : m.Vacant) (hm' : m'.Vacant) (ho : ∀ s ∈ m.scope, ∀ k, ¬ r s.id k)
      (ho' : ∀ s ∈ m'.scope, ∀ k, ¬ r k s.id)
  | stored {s s' : Scope} {e e' : ScopeId} (hs : m.scope = some s) (hs' : m'.scope = some s')
      (ha : s.Alike r s') (he : m.enclosing = some e) (he' : m'.enclosing = some e') (hr : r e e')

namespace Memory

variable {r : Link} {m m' : Memory}

/-- The count does not matter. -/
theorem Alike.counts (h : m.Alike r m') (count count' : UInt32) :
    Alike r { m with count } { m' with count := count' } := by
  cases h with
  | vacant hm hm' ho ho' => exact .vacant hm hm' ho ho'
  | stored hs hs' ha he he' hr => exact .stored hs hs' ha he he' hr

/-- Memories stay alike when both are cleared. -/
theorem Alike.cleared (h : m.Alike r m') :
    Alike r { m with scope := m.scope.map Scope.cleared }
      { m' with scope := m'.scope.map Scope.cleared } := by
  cases h with
  | vacant hm hm' ho ho' =>
    refine .vacant ?_ ?_ ?_ ?_
    · intro s hs
      obtain ⟨t, -, rfl⟩ := Option.map_eq_some_iff.mp hs
      rfl
    · intro s hs
      obtain ⟨t, -, rfl⟩ := Option.map_eq_some_iff.mp hs
      rfl
    · intro s hs
      obtain ⟨t, ht, rfl⟩ := Option.map_eq_some_iff.mp hs
      exact ho t ht
    · intro s hs
      obtain ⟨t, ht, rfl⟩ := Option.map_eq_some_iff.mp hs
      exact ho' t ht
  | @stored s s' e e' hs hs' ha he he' hr =>
    have hc : s.cleared.Alike r s'.cleared := ⟨ha.1, rfl⟩
    refine .stored ?_ ?_ hc he he' hr
    · rw [hs, Option.map_some]
    · rw [hs', Option.map_some]

/-- A memory that stores no scope of a new pair stays alike. -/
theorem Alike.insert {a b : ScopeId} (h : m.Alike r m') (ha : m.stores a = 0)
    (hb : m'.stores b = 0) : m.Alike (r.insert a b) m' := by
  cases h with
  | vacant hm hm' ho ho' =>
    refine .vacant hm hm' ?_ ?_
    · rintro s hs k (hk | ⟨hi, -⟩)
      · exact ho s hs k hk
      · rw [stores, hs] at ha
        simp [hi] at ha
    · rintro s hs k (hk | ⟨-, hj⟩)
      · exact ho' s hs k hk
      · rw [stores, hs] at hb
        simp [hj] at hb
  | stored hs hs' hal he he' hr =>
    exact .stored hs hs' (hal.mono (r.extends_insert a b)) he he' (r.extends_insert a b hr)

/-- A probe steps into both scopes or into neither. -/
theorem Alike.probeBoard {b b' : Blackboard} (h : m.Alike r m') (hr : r.Matching)
    (hb : b.Alike r b') : (m.probeBoard b).Alike r (m'.probeBoard b') := by
  cases h with
  | vacant hm hm' =>
    have hv {m : Memory} (hm : m.Vacant) (b : Blackboard) : m.probeBoard b = b := by
      unfold Memory.probeBoard
      cases hs : m.scope with
      | none => rfl
      | some s => simp [hm s hs]
    rw [hv hm, hv hm']
    exact hb
  | @stored s s' e e' hs hs' ha he he' hre =>
    have hiff : e = b.id ↔ e' = b'.id := hr.eq_iff hre hb.scope.1
    unfold Memory.probeBoard
    simp only [hs, hs', he, he', ha.2]
    by_cases hid : e = b.id
    · have hid' := hiff.mp hid
      subst hid hid'
      simp only [beq_self_eq_true, Bool.and_true]
      cases s'.entries.isEmpty with
      | true => exact hb
      | false => exact hb.under ha
    · have hid' := mt hiff.mpr hid
      simp only [Option.some_beq_some, beq_eq_false_iff_ne.mpr hid, beq_eq_false_iff_ne.mpr hid',
        Bool.and_false, Bool.false_eq_true, if_false]
      exact hb

end Memory

/-! ### Stepping into scopes -/

/-- Below a scope decorator, a scope is put in front of the blackboard. -/
theorem Env.enclosing_enter (env : Env ω) (m : Memory) :
    (env.enter m).board = .under (env.enter m).board.scope env.board := by
  rcases env.enter_cases m with ⟨s, -, -, he⟩ | ⟨-, he⟩ <;> rw [he] <;> rfl

/-- Below a scope decorator, the world is the same. -/
theorem Env.world_enter (env : Env ω) (m : Memory) : (env.enter m).world = env.world := by
  rcases env.enter_cases m with ⟨s, -, -, he⟩ | ⟨-, he⟩ <;> rw [he]

/-- A vacant memory leads into a scope without entries and without a partner. -/
theorem Memory.Vacant.enter {m : Memory} (hm : m.Vacant) (free : ScopeId → Prop)
    (ho : ∀ s ∈ m.scope, free s.id) {env : Env ω} (hf : free env.fresh) :
    (env.enter m).board.scope.entries = ∅ ∧ free (env.enter m).board.id := by
  rcases env.enter_cases m with ⟨s, hs, -, he⟩ | ⟨-, he⟩
  · rw [he]
    exact ⟨hm s hs, ho s hs⟩
  · rw [he]
    exact ⟨rfl, hf⟩

/-- Memories that are alike lead into scopes with the same entries, which stand for each other or
have no partners yet. -/
theorem Memory.Alike.enter {r : Link} {m m' : Memory} {env env' : Env ω} (h : m.Alike r m')
    (hr : r.Matching) (hu : r.Used env.fresh env'.fresh) (hb : env.board.Alike r env'.board) :
    let b := (env.enter m).board
    let b' := (env'.enter m').board
    b.scope.entries = b'.scope.entries ∧ (r b.id b'.id ∨ r.Open b.id b'.id) := by
  have hfree : ∀ k, ¬ r env.fresh k := fun k hk ↦ Nat.lt_irrefl _ (hu hk).1
  have hfree' : ∀ k, ¬ r k env'.fresh := fun k hk ↦ Nat.lt_irrefl _ (hu hk).2
  cases h with
  | vacant hm hm' ho ho' =>
    obtain ⟨he, hf⟩ := hm.enter (fun i ↦ ∀ k, ¬ r i k) ho hfree
    obtain ⟨he', hf'⟩ := hm'.enter (fun i ↦ ∀ k, ¬ r k i) ho' hfree'
    exact ⟨he.trans he'.symm, .inr ⟨hf, hf'⟩⟩
  | @stored s s' e e' hs hs' ha he he' hre =>
    have hiff : e = env.board.id ↔ e' = env'.board.id := hr.eq_iff hre hb.scope.1
    by_cases hid : e = env.board.id
    · have hk : m.keptScope env.board.id = some s := by simp [keptScope, he, hid, hs]
      have hk' : m'.keptScope env'.board.id = some s' := by
        simp [keptScope, he', hiff.mp hid, hs']
      simp only [Env.enter, hk, hk']
      exact ⟨ha.2, .inl ha.1⟩
    · have hk : m.keptScope env.board.id = none := by simp [keptScope, he, hid]
      have hk' : m'.keptScope env'.board.id = none := by
        simp [keptScope, he', mt hiff.mpr hid]
      simp only [Env.enter, hk, hk']
      exact ⟨rfl, .inr ⟨hfree, hfree'⟩⟩

end BehaviorTree
