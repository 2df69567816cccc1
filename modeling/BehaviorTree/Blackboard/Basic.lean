import BehaviorTree.Value
import Std.Data.ExtTreeMap.Lemmas

/-!
# Blackboards

A blackboard is a local scope under a chain of enclosing scopes. A lookup takes the nearest scope
that holds the key; a write, a removal or a clearing touches the local scope alone. A scope keeps
its identity when it is detached from its chain and attached to another one.
-/

namespace BehaviorTree

/-- The identity of a scope; it survives every write and every change of the enclosing chain. -/
structure ScopeId where
  number : Nat
  deriving DecidableEq, Repr

/-- The keys of one scope with their values. -/
abbrev Entries := Std.ExtTreeMap String Value

/-- A scope on its own: an identity and its entries. -/
structure Scope where
  id : ScopeId
  entries : Entries

/-- A scope in use: the local scope and the scopes around it, nearest first. -/
structure Blackboard where
  scope : Scope
  enclosing : List Scope

namespace Scope

/-- A scope without entries. -/
def empty (id : ScopeId) : Scope := ⟨id, ∅⟩

/-- Drops every entry and keeps the identity. -/
def cleared (s : Scope) : Scope := { s with entries := ∅ }

/-- The scope as a blackboard with nothing around it. -/
def alone (s : Scope) : Blackboard := ⟨s, []⟩

end Scope

/-- The value of a key in the nearest of several scopes that has one. -/
def nearest? (key : String) : List Scope → Option Value
  | [] => none
  | s :: outer => s.entries[key]?.or (nearest? key outer)

namespace Blackboard

/-- The identity of the local scope. -/
def id (b : Blackboard) : ScopeId := b.scope.id

/-- The local entries. -/
def entries (b : Blackboard) : Entries := b.scope.entries

/-- The local scope followed by the scopes around it. -/
def scopes (b : Blackboard) : List Scope := b.scope :: b.enclosing

/-- The identity of the scope directly around the local one. -/
def parent? (b : Blackboard) : Option ScopeId := b.enclosing.head?.map (·.id)

/-- How many scopes lie around the local one. -/
def depth (b : Blackboard) : Nat := b.enclosing.length

/-- Puts a scope to use under another blackboard. -/
def under (s : Scope) (parent : Blackboard) : Blackboard := ⟨s, parent.scopes⟩

/-- Moves the local scope under another blackboard. -/
def attach (b parent : Blackboard) : Blackboard := under b.scope parent

/-- Takes the local scope out of its chain. -/
def detach (b : Blackboard) : Blackboard := b.scope.alone

/-- A reading copy of the local scope under another blackboard. -/
def overlay (b parent : Blackboard) : Blackboard := under b.scope parent

/-- Replaces the local entries. -/
def withEntries (b : Blackboard) (entries : Entries) : Blackboard :=
  { b with scope := { b.scope with entries } }

/-- The visible value of a key: local if there is one, else from the nearest enclosing scope. -/
def value? (b : Blackboard) (key : String) : Option Value := nearest? key b.scopes

/-- The value of a key in the local scope. -/
def localValue? (b : Blackboard) (key : String) : Option Value := b.entries[key]?

/-- Whether a key is visible. -/
def contains (b : Blackboard) (key : String) : Bool := (b.value? key).isSome

/-- Whether the local scope holds a key. -/
def containsLocal (b : Blackboard) (key : String) : Bool := (b.localValue? key).isSome

/-- Whether two keys look alike: both are invisible, or their visible values agree. -/
def alike (b : Blackboard) (key other : String) : Bool :=
  match b.value? key, b.value? other with
  | some v, some w => v.agrees w
  | none, none => true
  | _, _ => false

/-- Writes a value into the local scope. -/
def set (b : Blackboard) (key : String) (value : Value) : Blackboard :=
  b.withEntries (b.entries.insert key value)

/-- Removes a key from the local scope. -/
def remove (b : Blackboard) (key : String) : Blackboard :=
  b.withEntries (b.entries.erase key)

/-- Removes a key from the local scope and hands out the value that it had there. -/
def take (b : Blackboard) (key : String) : Option Value × Blackboard :=
  (b.localValue? key, b.remove key)

/-- Empties the local scope. -/
def clear (b : Blackboard) : Blackboard := b.withEntries ∅

/-- The number of local entries. -/
def size (b : Blackboard) : Nat := b.entries.size

/-- Whether the local scope is empty. -/
def isEmpty (b : Blackboard) : Bool := b.entries.isEmpty

/-- The local entries are those that were put in. -/
@[simp] theorem entries_withEntries (b : Blackboard) (e : Entries) :
    (b.withEntries e).entries = e := rfl

/-- Other local entries leave the identity of the local scope. -/
@[simp] theorem id_withEntries (b : Blackboard) (e : Entries) : (b.withEntries e).id = b.id := rfl

/-- Other local entries leave the enclosing scopes. -/
@[simp] theorem enclosing_withEntries (b : Blackboard) (e : Entries) :
    (b.withEntries e).enclosing = b.enclosing := rfl

/-- Of local entries put in twice, the later ones stay. -/
@[simp] theorem withEntries_withEntries (b : Blackboard) (e e' : Entries) :
    (b.withEntries e).withEntries e' = b.withEntries e' := rfl

/-- A lookup is local when the local scope has the key and goes outward when it has not. -/
theorem value?_eq_or (b : Blackboard) (key : String) :
    b.value? key = (b.localValue? key).or (nearest? key b.enclosing) := rfl

/-- After a write, the key has the value locally, and every other key has what it had. -/
theorem localValue?_set (b : Blackboard) (key other : String) (v : Value) :
    (b.set key v).localValue? other = if key = other then some v else b.localValue? other := by
  simp [localValue?, set, Std.ExtTreeMap.getElem?_insert]

/-- After a removal, the key has no local value, and every other key has what it had. -/
theorem localValue?_remove (b : Blackboard) (key other : String) :
    (b.remove key).localValue? other = if key = other then none else b.localValue? other := by
  simp [localValue?, remove, Std.ExtTreeMap.getElem?_erase]

/-- After a clear, no key has a local value. -/
theorem localValue?_clear (b : Blackboard) (key : String) : b.clear.localValue? key = none := by
  simp [localValue?, clear]

end Blackboard

end BehaviorTree
