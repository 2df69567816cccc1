import BehaviorTree.Leaf.World
import BehaviorTree.Proofs.Node.Site
import BehaviorTree.Proofs.Scope.Link

/-!
# A ledger of scopes

What is in the scopes of a tree can be told without the tree, from a log of what the hooks left in
them. The ledger keeps this account: the host fills the root with each call, a scope is empty when
an activation of its decorator begins, and a hook replaces the entries of the innermost scope around
its leaf and no others. A log is faithful when every hook saw just what the ledger has.
-/

namespace BehaviorTree

/-- What happens to the scopes of a tree. -/
inductive Notice where
  /-- The host calls the tree, with these entries in the scopes of its blackboard. -/
  | called (contents : List Entries)
  /-- An activation of a scope decorator begins. -/
  | opened (scope : NodeId)
  /-- A hook is called on a leaf: the entries of the scopes it sees, and the local ones it leaves.
  -/
  | hook (site : Site) (hook : Hook) (seen : List Entries) (left : Entries)
  /-- The tree returns to the host, with these entries in the scopes of the blackboard. -/
  | returned (contents : List Entries)

/-- The entries of the blackboard of the host, and of the scope of each decorator. -/
structure Ledger where
  root : List Entries
  scope : NodeId → Entries

namespace Ledger

/-- Nothing in any scope. -/
def blank : Ledger := ⟨[], fun _ ↦ ∅⟩

/-- Replaces the entries of the innermost of several scopes, the last of which is the root. -/
def write (l : Ledger) (scopes : List NodeId) (entries : Entries) : Ledger :=
  match scopes with
  | [] => { l with root := entries :: l.root.tail }
  | id :: _ => { l with scope := fun k ↦ if k = id then entries else l.scope k }

/-- What a leaf below some scopes is to see, innermost first and the root last. -/
def view (l : Ledger) (scopes : List NodeId) : List Entries := scopes.map l.scope ++ l.root

/-- What becomes of the ledger. -/
def after (l : Ledger) : Notice → Ledger
  | .called contents => { l with root := contents }
  | .opened id => l.write [id] ∅
  | .hook site _ _ left => l.write site.scopes left
  | .returned _ => l

/-- The ledger behind a log. -/
def of (log : List Notice) : Ledger := log.foldl after blank

/-- A ledger is brought up to date notice by notice. -/
@[simp] theorem of_append (log : List Notice) (notice : Notice) :
    of (log ++ [notice]) = (of log).after notice := by
  rw [of, List.foldl_append]
  rfl

variable {l l' : Ledger} {scopes : List NodeId} {entries : Entries} {k : NodeId}

/-- A write shows in the innermost scope alone. -/
theorem view_write (hn : scopes.Nodup) :
    (l.write scopes entries).view scopes = entries :: (l.view scopes).tail := by
  cases scopes with
  | nil => rfl
  | cons id rest =>
    have hrest : rest.map (l.write (id :: rest) entries).scope = rest.map l.scope := by
      refine List.map_congr_left fun k hk ↦ if_neg ?_
      rintro rfl
      exact (List.nodup_cons.mp hn).1 hk
    simp only [view, List.map_cons, hrest]
    simp [write]

/-- A hook writes to the innermost scope and no other. -/
theorem scope_write_of_ne (h : scopes.head? ≠ some k) :
    (l.write scopes entries).scope k = l.scope k := by
  cases scopes with
  | nil => rfl
  | cons id rest =>
    refine if_neg ?_
    rintro rfl
    exact h rfl

/-- A write below a scope leaves the root alone. -/
theorem root_write (h : scopes ≠ []) : (l.write scopes entries).root = l.root := by
  cases scopes with
  | nil => exact absurd rfl h
  | cons id rest => rfl

/-- What is in view depends on the scopes in view and the blackboard of the host. -/
theorem view_congr (hs : ∀ k ∈ scopes, l'.scope k = l.scope k) (hr : l'.root = l.root) :
    l'.view scopes = l.view scopes := by
  rw [view, view, hr, List.map_congr_left hs]

end Ledger

/-- Whether a notice shows what the ledger has. -/
def Notice.Holds (l : Ledger) : Notice → Prop
  | .called _ => True
  | .opened _ => True
  | .hook site _ seen _ => seen = l.view site.scopes
  | .returned contents => contents = l.root

/-- Whether each hook saw what the hooks before it had left, and the host finds it. -/
def Faithful (log : List Notice) : Prop :=
  ∀ before notice after, log = before ++ notice :: after → notice.Holds (Ledger.of before)

/-- An empty log is faithful. -/
theorem faithful_nil : Faithful [] := by
  intro before notice after h
  cases before <;> cases h

/-- A faithful log stays so with a notice that shows what its ledger has. -/
theorem Faithful.append {log : List Notice} (h : Faithful log) {notice : Notice}
    (hn : notice.Holds (Ledger.of log)) : Faithful (log ++ [notice]) := by
  intro before other after heq
  rcases List.eq_nil_or_concat after with rfl | ⟨rest, last, rfl⟩
  · obtain ⟨rfl, hlast⟩ := List.append_inj' heq rfl
    cases hlast
    exact hn
  · rw [List.concat_eq_append, ← List.cons_append, ← List.append_assoc] at heq
    exact h before other rest (List.append_inj' heq rfl).1

end BehaviorTree
