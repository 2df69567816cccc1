import BehaviorTree.Proofs.Node.Preserved

/-!
# What hooks preserve

If every hook preserves a property of leaves and a property of the local entries, then the engine
does: all leaves of a subtree keep the one, and the local scope and all stored scopes the other.
-/

namespace BehaviorTree

variable {ο σ ω : Type}

/-- Hooks that preserve a property of leaves together with one of the local entries. -/
structure Behavior.Preserves (B : Behavior ο σ ω) (P : σ → Prop) (Q : Entries → Prop) : Prop where
  start : ∀ s b w, P s → Q b.entries → P (B.start s b w).state ∧ Q (B.start s b w).entries
  run : ∀ s b w, P s → Q b.entries → P (B.run s b w).2.state ∧ Q (B.run s b w).2.entries
  stop : ∀ s b w, P s → Q b.entries → P (B.stop s b w).state ∧ Q (B.stop s b w).entries

/-- Whether the stored scope, if there is one, has entries with a property. -/
def Memory.Confined (Q : Entries → Prop) (m : Memory) : Prop := ∀ s ∈ m.scope, Q s.entries

namespace Memory

variable {Q : Entries → Prop} {m : Memory}

/-- A memory without entries is confined to what holds of none. -/
theorem Vacant.confined (h : m.Vacant) (hQ : Q ∅) : m.Confined Q := fun s hs ↦ by
  rw [h s hs]
  exact hQ

/-- A memory that keeps a scope is confined to what holds of its entries. -/
theorem confined_keep (m : Memory) (enclosing : ScopeId) {s : Scope} (hs : Q s.entries) :
    (m.keep enclosing s).Confined Q := by
  rintro _ ⟨⟩
  exact hs

private theorem confined_cleared (m : Memory) (hQ : Q ∅) :
    Confined Q { m with scope := m.scope.map Scope.cleared } := by
  intro s hs
  obtain ⟨t, -, rfl⟩ := Option.map_eq_some_iff.mp hs
  exact hQ

/-- The scope that is stepped into has the property, whether it was stored or is new. -/
theorem Confined.enter {ω : Type} (h : m.Confined Q) (hQ : Q ∅) (env : Env ω) :
    Q (env.enter m).board.entries := by
  rcases env.enter_cases m with ⟨s, hs, -, he⟩ | ⟨-, he⟩
  · rw [he]
    exact h s hs
  · rw [he]
    exact hQ

end Memory

namespace Node

/-- Whether a leaf, or what a decorator stores, has its property. -/
def Confined (P : σ → Prop) (Q : Entries → Prop) : Node σ → Prop
  | leaf _ _ state => P state
  | composite .. => True
  | decorator _ _ _ memory _ => memory.Confined Q

variable {B : Behavior ο σ ω} {P : σ → Prop} {Q : Entries → Prop} {n n' : Node σ}
  {env env' : Env ω}

/-- What all hooks preserve is preserved by whatever the engine does. -/
theorem Evolves.confined (hB : B.Preserves P Q) (hQ : Q ∅) (h : n.Evolves B env n' env')
    (hn : n.Everywhere (Confined P Q)) (he : Q env.board.entries) :
    n'.Everywhere (Confined P Q) ∧ Q env'.board.entries := by
  have hleaf {tag : Tag} {life : Life} {s : σ} (hs : P s) :
      (leaf tag life s).Everywhere (Confined P Q) :=
    everywhere_iff.mpr ⟨hs, fun c hc ↦ by cases hc⟩
  induction h with
  | refl => exact ⟨hn, he⟩
  | probe => exact ⟨hn, he⟩
  | trans h h' ih ih' =>
    obtain ⟨hm, hm'⟩ := ih hn he
    exact ih' hm hm'
  | life n env life =>
    obtain ⟨hhere, hbelow⟩ := everywhere_iff.mp hn
    refine ⟨everywhere_iff.mpr ⟨?_, ?_⟩, he⟩
    · cases n <;> exact hhere
    · rw [children_withLife]
      exact hbelow
  | resume => exact ⟨everywhere_iff.mpr ⟨trivial, (everywhere_iff.mp hn).2⟩, he⟩
  | count => exact ⟨everywhere_iff.mpr ⟨hn.here, (everywhere_iff.mp hn).2⟩, he⟩
  | cleared _ _ _ memory =>
    exact ⟨everywhere_iff.mpr ⟨memory.confined_cleared hQ, (everywhere_iff.mp hn).2⟩, he⟩
  | start =>
    obtain ⟨hs, hb⟩ := hB.start _ _ _ hn.here he
    exact ⟨hleaf hs, hb⟩
  | run =>
    obtain ⟨hs, hb⟩ := hB.run _ _ _ hn.here he
    exact ⟨hleaf hs, hb⟩
  | stop =>
    obtain ⟨hs, hb⟩ := hB.stop _ _ _ hn.here he
    exact ⟨hleaf hs, hb⟩
  | child tag life kind resume before after h ih =>
    obtain ⟨-, hbelow⟩ := everywhere_iff.mp hn
    obtain ⟨hc, hb⟩ := ih (hbelow _ (by simp [children])) he
    refine ⟨everywhere_iff.mpr ⟨trivial, fun d hd ↦ ?_⟩, hb⟩
    rcases List.mem_append.mp hd with hd | hd
    · exact hbelow d (by simp [children, hd])
    · rcases List.mem_cons.mp hd with rfl | hd
      · exact hc
      · exact hbelow d (by simp [children, hd])
  | only tag life kind memory h ih =>
    obtain ⟨hhere, hbelow⟩ := everywhere_iff.mp hn
    obtain ⟨hc, hb⟩ := ih (hbelow _ (by simp [children])) he
    refine ⟨everywhere_iff.mpr ⟨hhere, fun d hd ↦ ?_⟩, hb⟩
    obtain rfl : _ = d := Option.some.inj (Option.mem_toList.mp hd)
    exact hc
  | @inScope tag life kind memory c c' env inner h ih =>
    obtain ⟨hhere, hbelow⟩ := everywhere_iff.mp hn
    have hin : memory.Confined Q := hhere
    obtain ⟨hc, hb⟩ := ih (hbelow _ (by simp [children])) (hin.enter hQ env)
    refine ⟨everywhere_iff.mpr ⟨memory.confined_keep _ hb, fun d hd ↦ ?_⟩, he⟩
    obtain rfl : _ = d := Option.some.inj (Option.mem_toList.mp hd)
    exact hc

end Node

end BehaviorTree
