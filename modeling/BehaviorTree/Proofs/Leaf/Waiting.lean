import BehaviorTree.Leaf.Basic
import BehaviorTree.Proofs.Host.Renaming
import BehaviorTree.Proofs.Host.Sparing
import BehaviorTree.Tree.Basic

/-!
# Waiting leaves on their own

The hooks for trees whose leaves all wait. They see what is visible on the blackboard and no
identities, and a start resets all that a run changes.
-/

namespace BehaviorTree

/-- What is visible under a key depends on what is in the scopes. -/
theorem Blackboard.value?_eq_of_contents {b b' : Blackboard} (h : b.contents = b'.contents)
    (key : String) : b.value? key = b'.value? key := by
  have hnearest (ss : List Scope) :
      nearest? key ss = (ss.map Scope.entries).foldr (fun e v ↦ e[key]?.or v) none := by
    induction ss with
    | nil => rfl
    | cons s rest ih => rw [nearest?, ih, List.map_cons, List.foldr_cons]
  rw [value?, value?, hnearest, hnearest]
  exact congrArg _ h

/-- The local entries are those of the first scope. -/
theorem Blackboard.entries_eq_of_contents {b b' : Blackboard} (h : b.contents = b'.contents) :
    b.entries = b'.entries := (List.cons.inj h).1

namespace Wait

/-- The hooks of waiting leaves. -/
def behavior : Behavior Owner Wait World where
  awake _ x w := (.ok x, w)
  start x b w := ⟨x.start, b.entries, w⟩
  run x b w :=
    match x.run b with
    | .ok r => (r.1, ⟨r.2, b.entries, w⟩)
    | .error e => (.failure, ⟨x, b.entries, w.fail e⟩)
  stop x b w := ⟨x, b.entries, w⟩
  evaluate _ _ w := (.success, w)

/-- Waiting leaves see what is in the scopes and no identities. -/
theorem blind_behavior : behavior.Blind where
  start x _ _ w hb := by simp only [behavior, Blackboard.entries_eq_of_contents hb]
  run x b b' w hb := by
    have hrun : x.run b = x.run b' := by
      simp only [run, Blackboard.getFloat, Blackboard.readD, Blackboard.read,
        Blackboard.value?_eq_of_contents hb]
    simp only [behavior, hrun, Blackboard.entries_eq_of_contents hb]
  stop x _ _ w hb := by simp only [behavior, Blackboard.entries_eq_of_contents hb]
  evaluate _ _ _ _ _ := rfl

/-- A wait leaves a failed read in the world, and looks at nothing there. -/
theorem secluded_behavior : behavior.Secluded where
  awake _ _ _ _ := rfl
  start _ _ _ _ := ⟨rfl, rfl⟩
  run x b _ _ := by
    simp only [behavior]
    cases x.run b <;> exact ⟨rfl, rfl, rfl⟩
  stop _ _ _ _ := ⟨rfl, rfl⟩
  evaluate _ _ _ _ := rfl

/-- A start and a probe look at no more than the seconds to wait. -/
theorem resets_behavior : behavior.Resets seconds where
  start {x x'} b w hx := by simp only [behavior, start, hx]
  evaluate _ _ _ := rfl

/-- No hook changes the seconds to wait. -/
theorem keeps_behavior : behavior.Keeps seconds where
  start _ _ _ := rfl
  run x b w := by
    simp only [behavior, run]
    cases b.getFloat Clock.deltaKey 0 <;> rfl
  stop _ _ _ := rfl

/-- A wait changes nothing on the blackboard. -/
theorem spares_behavior (keys : List String) : behavior.Spares (fun _ ↦ True) keys where
  awake _ _ _ _ _ _ := trivial
  start _ _ _ _ := ⟨trivial, fun _ _ ↦ rfl⟩
  run x b _ _ := by
    simp only [behavior]
    cases x.run b <;> exact ⟨trivial, fun _ _ ↦ rfl⟩
  stop _ _ _ _ := ⟨trivial, fun _ _ ↦ rfl⟩

/-- Binding a waiting leaf leaves the seconds to wait. -/
theorem binds_behavior : behavior.Binds seconds fun _ k ↦ k := by
  rintro owner x w x' ⟨⟩
  rfl

/-- A tree of one named wait, in a scope of its own. -/
def pause : Tree Owner (String × Wait) :=
  let wait := Node.newLeaf (.plain (.ofNat 1) "wait") ("wait", ofSeconds 1)
  ⟨.newDecorator (.plain (.ofNat 0) "pause") .scoped (some wait), [.ofNat 0, .ofNat 1], none,
    false, none⟩

/-- A pause as its author made it stores no scope. -/
theorem stores_pause (i : ScopeId) : pause.root.stores i = 0 := by
  simp [pause, Node.newDecorator, Node.newLeaf, Memory.stores, Memory.fresh]

end Wait

end BehaviorTree
