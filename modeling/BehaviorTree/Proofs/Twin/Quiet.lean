import BehaviorTree.Proofs.Lifecycle.Lawful
import BehaviorTree.Proofs.Node.Recast
import BehaviorTree.Proofs.Twin.Basic

/-!
# Quiet twins

In a quiet subtree no activation is open, and nothing of former activations is left that a start
would not reset. Quiet subtrees of one frame are twins as long as the scopes they store have no
partners. Twins that differ only in identities of scopes are equal without them.
-/

namespace BehaviorTree

variable {ο σ κ ω : Type}

/-- A life without an open activation. -/
structure Life.Closed (l : Life) : Prop where
  started : l.started = false
  state : l.state ≠ .running

private theorem Life.closed_fresh : Life.fresh.Closed := ⟨rfl, by simp [fresh]⟩

private theorem Life.Closed.alike {strict : Prop} {l l' : Life} (h : l.Closed) (h' : l'.Closed)
    (hs : strict → l = l') : l.Alike strict l' where
  started := h.started.trans h'.started.symm
  running := iff_of_false h.state h'.state
  same := hs

namespace Node

/-- A node that rests and has a closed life. -/
def Quiet (n : Node σ) : Prop := n.life.Closed ∧ n.Resting fun _ ↦ True

/-- Unused subtrees are quiet. -/
theorem quiet_of_allUnused {n : Node σ} (h : n.AllUnused) : n.Everywhere Quiet := by
  have hs : n.AllSteady fun _ _ ↦ True := allSteady_of_allUnused h fun _ _ _ _ ↦ trivial
  intro m hm
  have hl := (h m hm).life_eq
  refine ⟨by rw [hl]; exact Life.closed_fresh, (hs m hm).resting ?_⟩
  rw [started, hl]
  rfl

/-- Steady subtrees that are not started are quiet. -/
theorem quiet_of_allSteady {n : Node σ} (h : n.AllSteady fun _ _ ↦ True)
    (hs : n.started = false) : n.Everywhere Quiet := by
  intro m hm
  have hm' := not_started_of_resting h hs m hm
  refine ⟨⟨hm', fun hr ↦ ?_⟩, (h m hm).resting hm'⟩
  rw [(h m hm).started_iff.mpr hr] at hm'
  cases hm'

/-! ### Subtrees of one frame -/

private theorem frame_eq_of_mem_zip {f : σ → κ} {ns ns' : List (Node σ)}
    (h : ns.map (frame f) = ns'.map (frame f)) {p : Node σ × Node σ} (hp : p ∈ ns.zip ns') :
    p.1.frame f = p.2.frame f := by
  induction ns generalizing ns' with
  | nil => cases hp
  | cons c rest ih =>
    cases ns' with
    | nil => cases hp
    | cons c' rest' =>
      simp only [List.map_cons, List.cons.injEq] at h
      rcases List.mem_cons.mp hp with rfl | hp
      · exact h.1
      · exact ih h.2 hp

/-- What is asked of a pair of nodes so that they are twins where they are quiet. -/
structure Loose (strict : Prop) (free : ScopeId → Prop) (n : Node σ) : Prop where
  quiet : n.Quiet
  unused : strict → n.Unused
  free : ∀ i, n.ownStores i ≠ 0 → free i

private theorem Loose.memory {strict : Prop} {free : ScopeId → Prop} {tag : Tag} {life : Life}
    {kind : DecoratorKind} {memory : Memory} {child : Option (Node σ)}
    (h : (decorator tag life kind memory child).Loose strict free) :
    memory.Vacant ∧ ∀ s ∈ memory.scope, free s.id := by
  refine ⟨h.quiet.2.1, fun s hs ↦ h.free s.id ?_⟩
  rw [ownStores, Memory.stores, hs]
  simp

/-- Quiet subtrees of one frame are twins if the scopes they store have no partners. -/
theorem twins_of_frame {part : σ → κ} {strict : Prop} {r : Link} {n n' : Node σ}
    (hf : n.frame part = n'.frame part)
    (h : n.Everywhere (Loose strict fun i ↦ ∀ k, ¬ r i k))
    (h' : n'.Everywhere (Loose strict fun i ↦ ∀ k, ¬ r k i)) : Twins part strict r n n' := by
  induction n using child_induction generalizing n' with
  | step n ih =>
    have hl := h.here
    have hl' := h'.here
    have hlife : n.life.Alike strict n'.life := by
      refine hl.quiet.1.alike hl'.quiet.1 fun hs ↦ ?_
      rw [(hl.unused hs).life_eq, (hl'.unused hs).life_eq]
    cases n with
    | leaf tag life s =>
      obtain ⟨life', s', rfl, hp⟩ := recast_eq_leaf (hf.symm.trans (recast_leaf _ _ _))
      have hclosed : life.started = false := hl.quiet.1.started
      refine .leaf hlife hp.symm fun hs ↦ ?_
      rw [hclosed] at hs
      cases hs
    | composite tag life kind resume children =>
      obtain ⟨life', resume', children', rfl, hchildren⟩ :=
        recast_eq_composite (hf.symm.trans (recast_composite _ _ _ _ _))
      have hc : children.map (frame part) = children'.map (frame part) := hchildren.symm
      obtain rfl : resume = 0 := hl.quiet.2.1
      obtain rfl : resume' = 0 := hl'.quiet.2.1
      have hlength : children.length = children'.length := by
        simpa using congrArg List.length hc
      have htwins : Twins part strict r
          (.composite tag life kind 0 ((children.zip children').map Prod.fst))
          (.composite tag life' kind 0 ((children.zip children').map Prod.snd)) := by
        refine .composite hlife fun p hp ↦ ?_
        have hm := List.of_mem_zip hp
        exact ih p.1 hm.1 (frame_eq_of_mem_zip hc hp) (h.below hm.1) (h'.below hm.2)
      rwa [List.map_fst_zip (by omega), List.map_snd_zip (by omega)] at htwins
    | decorator tag life kind memory child =>
      obtain ⟨life', memory', child', rfl, hchild⟩ :=
        recast_eq_decorator (hf.symm.trans (recast_decorator _ _ _ _ _))
      have hc : child.map (frame part) = child'.map (frame part) := hchild.symm
      obtain ⟨hv, hfree⟩ := hl.memory
      obtain ⟨hv', hfree'⟩ := hl'.memory
      have hclosed : life.started = false := hl.quiet.1.started
      have hcount : strict ∨ life.started = true → memory.count = memory'.count := by
        rintro (hs | hs)
        · rw [(hl.unused hs).2.1, (hl'.unused hs).2.1]
        · rw [hclosed] at hs
          cases hs
      have hm : memory.Alike r memory' := .vacant hv hv' hfree hfree'
      cases child with
      | none =>
        cases child' with
        | none => exact .decorator_none hlife hm hcount
        | some c' => cases hc
      | some c =>
        cases child' with
        | none => cases hc
        | some c' =>
          have hchild : c.frame part = c'.frame part := by simpa using hc
          have hc₁ : c ∈ (decorator tag life kind memory (some c)).children := by simp [children]
          have hc₂ : c' ∈ (decorator tag life' kind memory' (some c')).children := by
            simp [children]
          exact .decorator_some hlife hm hcount (ih c hc₁ hchild (h.below hc₁) (h'.below hc₂))

/-! ### What is left of twins without identities -/

private theorem Memory.plain_eq {r : Link} {m m' : Memory} (h : m.Alike r m')
    (hc : m.count = m'.count) : m.plain = m'.plain := by
  cases h with
  | vacant hm hm' =>
    have hv {m : Memory} (hm : m.Vacant) : m.plain = ⟨m.count, none, none⟩ := by
      cases hs : m.scope with
      | none => simp [Memory.plain, hs]
      | some s => simp [Memory.plain, hs, hm s hs]
    rw [hv hm, hv hm', hc]
  | @stored s s' _ _ hs hs' ha =>
    have hfilter : s.entries.isEmpty = s'.entries.isEmpty := by rw [ha.2]
    unfold Memory.plain
    rw [hs, hs', hc, Option.filter_some, Option.filter_some, hfilter]
    cases s'.entries.isEmpty with
    | true => rfl
    | false => simp [ha.2]

/-- Twins that agree in all but identities of scopes are equal without them. -/
theorem Twins.plain_eq {r : Link} {n n' : Node σ} (h : Twins (fun s : σ ↦ s) True r n n') :
    n.plain = n'.plain := by
  induction h with
  | @intro n n' head pairs left right below ih =>
    have hchildren : n.children.map plain = n'.children.map plain := by
      rw [left, right, List.map_map, List.map_map]
      exact List.map_congr_left ih
    cases head with
    | leaf hl hp => simp only [plain, recast_leaf, hl.same trivial, hp]
    | composite hl =>
      simp only [plain, recast_composite, hl.same trivial, composite.injEq, true_and]
      exact hchildren
    | @decorator _ _ _ _ _ _ child child' hl hm hc =>
      have hchild : child.map plain = child'.map plain := by
        have hlist : child.toList.map plain = child'.toList.map plain := hchildren
        rw [← Option.toList_map, ← Option.toList_map] at hlist
        simpa using congrArg List.head? hlist
      simp only [plain, recast_decorator, hl.same trivial, Memory.plain_eq hm (hc (.inl trivial)),
        decorator.injEq, true_and]
      exact hchild

end Node

end BehaviorTree
