import BehaviorTree.Proofs.Scope.Link

/-!
# The desk of a host

A host keeps scopes of its own, as if on a desk. To work with a tree it puts one of them under
others, and afterwards takes it back as the tree has left it. Two desks are alike when their scopes
stand for each other one by one; whatever is done to both keeps them alike.
-/

namespace BehaviorTree

variable {ω : Type}

/-- The scopes that a host keeps, and what lies outside. -/
structure Desk (ω : Type) extends Outside ω where
  scopes : List Scope

/-- Which scope of a desk to work in, and which ones to put around it, nearest first. -/
structure Place where
  scope : Nat
  around : List Nat

namespace Desk

/-- The blackboard at a place, if the desk has a scope there. -/
def board? (d : Desk ω) (p : Place) : Option Blackboard :=
  d.scopes[p.scope]?.map fun s ↦ ⟨s, p.around.filterMap (d.scopes[·]?)⟩

/-- The surroundings with a blackboard of the desk. -/
def env (d : Desk ω) (b : Blackboard) : Env ω := ⟨d.toOutside, b⟩

/-- Takes back a scope as it was left. -/
def after (d : Desk ω) (index : Nat) (env : Env ω) : Desk ω :=
  ⟨env.toOutside, d.scopes.set index env.board.scope⟩

/-- Lays a new scope on the desk. -/
def create (d : Desk ω) : Desk ω :=
  ⟨⟨d.world, d.fresh.next⟩, d.scopes ++ [.empty d.fresh]⟩

/-- Changes the entries of a scope. -/
def write (d : Desk ω) (index : Nat) (f : Entries → Entries) : Desk ω :=
  { d with scopes := d.scopes.modify index fun s ↦ { s with entries := f s.entries } }

/-- Changes the world. -/
def withWorld (d : Desk ω) (w : ω) : Desk ω := ⟨⟨w, d.fresh⟩, d.scopes⟩

/-- The entries of each scope. -/
def contents (d : Desk ω) : List Entries := d.scopes.map Scope.entries

/-- How many scopes of the desk have an identity. -/
def stores (d : Desk ω) (i : ScopeId) : Nat := (d.scopes.map Scope.id).count i

/-! ### Identities on the desk -/

/-- A write leaves the scopes on the desk where they are. -/
@[simp] theorem stores_write (d : Desk ω) (index : Nat) (f : Entries → Entries) (i : ScopeId) :
    (d.write index f).stores i = d.stores i := by
  have hids : (d.write index f).scopes.map Scope.id = d.scopes.map Scope.id := by
    refine List.ext_getElem? fun k ↦ ?_
    simp only [write, List.getElem?_map, List.getElem?_modify]
    split
    · cases d.scopes[k]? <;> rfl
    · simp
  rw [stores, hids, stores]

/-- Creating a blackboard puts the next identity on the desk, and no other. -/
theorem stores_create (d : Desk ω) (i : ScopeId) :
    d.create.stores i = (if d.fresh = i then 1 else 0) + d.stores i := by
  rw [stores, stores, create, List.map_append, List.count_append, Nat.add_comm]
  by_cases hi : d.fresh = i <;> simp [hi, Scope.empty]

/-- The blackboard at a place has the scope of that place at its front. -/
theorem scope_of_board? {d : Desk ω} {p : Place} {b : Blackboard} (h : d.board? p = some b) :
    d.scopes[p.scope]? = some b.scope := by
  obtain ⟨s, hs, rfl⟩ := Option.map_eq_some_iff.mp h
  exact hs

/-- Taking back a scope with the identity it had changes no identities. -/
theorem stores_after {d : Desk ω} {p : Place} {b : Blackboard} {env : Env ω}
    (h : d.board? p = some b) (hid : env.board.id = b.id) (i : ScopeId) :
    (d.after p.scope env).stores i = d.stores i := by
  have hids : (d.scopes.set p.scope env.board.scope).map Scope.id = d.scopes.map Scope.id := by
    rw [List.map_set]
    refine List.ext_getElem? fun k ↦ ?_
    rw [List.getElem?_set']
    split
    · next hk =>
      subst hk
      rw [List.getElem?_map, scope_of_board? h]
      exact congrArg some hid
    · rfl
  rw [stores, after, hids, stores]

/-! ### Desks that are alike -/

/-- Whether the scopes of two desks stand for each other, with the same world outside. -/
structure Alike (r : Link) (d d' : Desk ω) : Prop where
  matching : r.Matching
  used : r.Used d.fresh d'.fresh
  scopes : List.Forall₂ (Scope.Alike r) d.scopes d'.scopes
  world : d.world = d'.world

end Desk

/-- Related lists have related elements at each index. -/
theorem forall₂_getElem? {α β : Type} {R : α → β → Prop} {as : List α} {bs : List β}
    (h : List.Forall₂ R as bs) (k : Nat) : Option.Rel R as[k]? bs[k]? := by
  induction h generalizing k with
  | nil => exact .none
  | cons hab _ ih =>
    cases k with
    | zero => exact .some hab
    | succ k => exact ih k

private theorem forall₂_set {α β : Type} {R : α → β → Prop} {as : List α} {bs : List β}
    (h : List.Forall₂ R as bs) (k : Nat) {a : α} {b : β} (hab : R a b) :
    List.Forall₂ R (as.set k a) (bs.set k b) := by
  induction h generalizing k with
  | nil => exact .nil
  | cons hcd hrest ih =>
    cases k with
    | zero => exact .cons hab hrest
    | succ k => exact .cons hcd (ih k)

namespace Desk.Alike

variable {r r₁ : Link} {d d' : Desk ω}

/-- The blackboards at one place are alike, if there is one. -/
theorem board? (h : d.Alike r d') (p : Place) :
    Option.Rel (Blackboard.Alike r) (d.board? p) (d'.board? p) := by
  have haround : List.Forall₂ (Scope.Alike r) (p.around.filterMap (d.scopes[·]?))
      (p.around.filterMap (d'.scopes[·]?)) := by
    induction p.around with
    | nil => exact .nil
    | cons k rest ih =>
      have hk := forall₂_getElem? h.scopes k
      rw [List.filterMap_cons, List.filterMap_cons]
      generalize d.scopes[k]? = x, d'.scopes[k]? = x' at hk
      cases hk with
      | none => exact ih
      | some hs => exact .cons hs ih
  have hscope := forall₂_getElem? h.scopes p.scope
  unfold Desk.board?
  generalize d.scopes[p.scope]? = x, d'.scopes[p.scope]? = x' at hscope
  cases hscope with
  | none => exact .none
  | some hs => exact .some (.cons hs haround)

/-- Desks that are alike have the same entries. -/
theorem contents (h : d.Alike r d') : d.contents = d'.contents := Scope.map_entries_eq h.scopes

/-- New scopes become partners. -/
theorem create (h : d.Alike r d') : d.create.Alike (r.insert d.fresh d'.fresh) d'.create where
  matching := h.matching.insert
    ⟨fun _ hk ↦ Nat.lt_irrefl _ (h.used hk).1, fun _ hk ↦ Nat.lt_irrefl _ (h.used hk).2⟩
  used := by
    rintro i j (hij | ⟨rfl, rfl⟩)
    · exact ⟨Nat.lt_succ_of_lt (h.used hij).1, Nat.lt_succ_of_lt (h.used hij).2⟩
    · exact ⟨Nat.lt_succ_self _, Nat.lt_succ_self _⟩
  scopes := by
    refine List.rel_append ?_ (.cons ⟨r.insert_self _ _, rfl⟩ .nil)
    exact h.scopes.imp fun _ _ hs ↦ hs.mono (r.extends_insert _ _)
  world := h.world

/-- The same write leaves desks alike. -/
theorem write (h : d.Alike r d') (index : Nat) (f : Entries → Entries) :
    (d.write index f).Alike r (d'.write index f) := by
  refine { h with scopes := ?_ }
  have hs := h.scopes
  unfold Desk.write
  generalize d.scopes = ss, d'.scopes = ss' at hs
  induction hs generalizing index with
  | nil => simp
  | cons hs hrest ih =>
    cases index with
    | zero => exact .cons ⟨hs.1, congrArg f hs.2⟩ hrest
    | succ index => exact .cons hs (ih index)

/-- The same world leaves desks alike. -/
theorem withWorld (h : d.Alike r d') (w : ω) : (d.withWorld w).Alike r (d'.withWorld w) :=
  { h with world := rfl }

/-- Both desks take back scopes that stand for each other. -/
theorem after {env env' : Env ω} (h : d.Alike r d') (hext : r₁.Extends r) (hr : r₁.Matching)
    (hu : r₁.Used env.fresh env'.fresh) (hs : env.board.scope.Alike r₁ env'.board.scope)
    (hw : env.world = env'.world) (index : Nat) :
    (d.after index env).Alike r₁ (d'.after index env') where
  matching := hr
  used := hu
  scopes := forall₂_set (h.scopes.imp fun _ _ hs ↦ hs.mono hext) index hs
  world := hw

end Desk.Alike

end BehaviorTree
