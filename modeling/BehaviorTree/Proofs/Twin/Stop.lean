import BehaviorTree.Proofs.Node.Preserved
import BehaviorTree.Proofs.Twin.Paired

/-!
# Stopping twins

Aborts of twins go side by side: they call the same hooks, with the same effects, and leave twins.
-/

namespace BehaviorTree

variable {ο σ κ ω : Type}

namespace Node

variable {B : Behavior ο σ ω} {part : σ → κ} {strict : Prop} {r : Link}
  {pairs rest : List (Node σ × Node σ)} {env env' : Env ω}

/-! ### Several nodes, one after the other -/

/-- Only the first of some nodes comes out anew. -/
theorem OnwardAll.head {x x' : Node σ × Env ω}
    (h : Onward part strict r (pairs ++ rest) x x') :
    OnwardAll part strict r rest (x.1 :: pairs.map Prod.fst, x.2)
      (x'.1 :: pairs.map Prod.snd, x'.2) := by
  obtain ⟨r₁, hext, hp⟩ := h
  exact ⟨r₁, (x.1, x'.1) :: pairs, hext, rfl, rfl, hp⟩

/-- Nodes in front of those that come out anew stay as they are. -/
theorem OnwardAll.behind {ys ys' : List (Node σ) × Env ω}
    (h : OnwardAll part strict r (pairs ++ rest) ys ys') :
    OnwardAll part strict r rest (pairs.map Prod.fst ++ ys.1, ys.2)
      (pairs.map Prod.snd ++ ys'.1, ys'.2) := by
  obtain ⟨r₁, qs, hext, hl, hr, hp⟩ := h
  refine ⟨r₁, pairs ++ qs, hext, ?_, ?_, hp.perm ?_⟩
  · rw [List.map_append, hl]
  · rw [List.map_append, hr]
  · rw [← List.append_assoc]
    exact List.perm_append_comm.append_right rest

/-- After the first of some nodes has come out, the others do. -/
theorem OnwardAll.behind_first {r₁ : Link} {p : Node σ × Node σ}
    {ys ys' : List (Node σ) × Env ω} (hext : r₁.Extends r)
    (h : OnwardAll part strict r₁ (p :: rest) ys ys') :
    OnwardAll part strict r rest (p.1 :: ys.1, ys.2) (p.2 :: ys'.1, ys'.2) := by
  have hcons : OnwardAll part strict r₁ ([p] ++ rest) ys ys' := h
  obtain ⟨r₂, qs, hext₂, hl, hr, hp⟩ := hcons.behind
  exact ⟨r₂, qs, hext₂.trans hext, hl, hr, hp⟩

/-- A composite comes out with its children. -/
theorem OnwardAll.composite {tag : Tag} {life life' : Life} {kind : CompositeKind} {resume : Nat}
    {ys ys' : List (Node σ) × Env ω} (h : OnwardAll part strict r rest ys ys')
    (hl : life.Alike strict life') :
    Onward part strict r rest (.composite tag life kind resume ys.1, ys.2)
      (.composite tag life' kind resume ys'.1, ys'.2) := by
  obtain ⟨r₁, qs, hext, hleft, hright, hp⟩ := h
  rw [hleft, hright]
  exact ⟨r₁, hext, hp.closeComposite hl⟩

/-- A decorator comes out with its child. -/
theorem Onward.decorator {tag : Tag} {life life' : Life} {kind : DecoratorKind}
    {memory memory' : Memory} {x x' : Node σ × Env ω}
    (h : Onward part strict r
      ((.decorator tag life kind memory none, .decorator tag life' kind memory' none) :: rest)
      x x') :
    Onward part strict r rest (.decorator tag life kind memory (some x.1), x.2)
      (.decorator tag life' kind memory' (some x'.1), x'.2) := by
  obtain ⟨r₁, hext, hp⟩ := h
  exact ⟨r₁, hext, hp.closeDecorator⟩

/-! ### Aborting -/

/-- Whether aborts of two nodes go side by side, whenever the runs do before. -/
def AbortsOnward (B : Behavior ο σ ω) (part : σ → κ) (strict : Prop) (n n' : Node σ) : Prop :=
  ∀ {r : Link} {rest : List (Node σ × Node σ)} {env env' : Env ω},
    Paired part strict r ((n, n') :: rest) env env' →
      Onward part strict r rest (n.abort B env) (n'.abort B env')

/-- Aborts go side by side if the stops of started nodes do. -/
theorem abort_onward_of_stop {n n' : Node σ}
    (h : Paired part strict r ((n, n') :: rest) env env')
    (hs : n.started = true → Onward part strict r rest (n.stop B env) (n'.stop B env')) :
    Onward part strict r rest (n.abort B env) (n'.abort B env') := by
  have heq := h.head.started_eq
  cases hst : n.started with
  | true =>
    obtain ⟨r₁, hext, hp⟩ := hs hst
    rw [abort_of_started hst, abort_of_started (heq.symm.trans hst)]
    exact ⟨r₁, hext, hp.withLife fun hf ↦ by cases hf⟩
  | false =>
    rw [abort_of_not_started hst, abort_of_not_started (heq.symm.trans hst)]
    exact ⟨r, Link.Extends.refl r, h.withLife fun hf ↦ by cases hf⟩

/-- Two nodes that are aborted on one condition go on side by side. -/
theorem abort_if_onward {n n' : Node σ} (h : Paired part strict r ((n, n') :: rest) env env')
    (ih : AbortsOnward B part strict n n') {p p' : Prop} [Decidable p] [Decidable p']
    (hiff : p ↔ p') :
    Onward part strict r rest (if p then n.abort B env else (n, env))
      (if p' then n'.abort B env' else (n', env')) := by
  by_cases hp : p
  · rw [if_pos hp, if_pos (hiff.mp hp)]
    exact ih h
  · rw [if_neg hp, if_neg (mt hiff.mpr hp)]
    exact ⟨r, Link.Extends.refl r, h⟩

private theorem stopRunning_onward (ih : ∀ p ∈ pairs, AbortsOnward B part strict p.1 p.2)
    (h : Paired part strict r (pairs ++ rest) env env') :
    OnwardAll part strict r rest (stopRunning B (pairs.map Prod.fst) env)
      (stopRunning B (pairs.map Prod.snd) env') := by
  induction pairs generalizing r rest env env' with
  | nil => exact ⟨r, [], Link.Extends.refl r, rfl, rfl, h⟩
  | cons p pairs rest_ih =>
    obtain ⟨r₁, hext, hp⟩ := abort_if_onward h (ih p (by simp)) h.head.life.running
    exact (rest_ih (fun q hq ↦ ih q (by simp [hq])) (hp.perm List.perm_middle)).behind_first hext

private theorem stopRunningAt_onward (ih : ∀ p ∈ pairs, AbortsOnward B part strict p.1 p.2)
    (index : Nat) (h : Paired part strict r (pairs ++ rest) env env') :
    OnwardAll part strict r rest (stopRunningAt B (pairs.map Prod.fst) index env)
      (stopRunningAt B (pairs.map Prod.snd) index env') := by
  induction pairs generalizing rest index with
  | nil => exact ⟨r, [], Link.Extends.refl r, rfl, rfl, h⟩
  | cons p pairs rest_ih =>
    cases index with
    | zero => exact .head (abort_if_onward h (ih p (by simp)) h.head.life.running)
    | succ index =>
      have hr := rest_ih (fun q hq ↦ ih q (by simp [hq])) index (h.perm List.perm_middle)
      exact hr.behind_first (Link.Extends.refl r)

/-- Stopping two started nodes goes side by side if aborting their children does. -/
theorem stop_onward (hB : B.Blind) {n n' : Node σ} (hs : n.started = true)
    (ih : ∀ c ∈ n.children, ∀ c', AbortsOnward B part strict c c')
    (h : Paired part strict r ((n, n') :: rest) env env') :
    Onward part strict r rest (n.stop B env) (n'.stop B env') := by
  cases n with
  | leaf tag life s =>
    obtain ⟨life', s', rfl, hl, -, hst⟩ := h.head.leaf_left
    obtain rfl := hst hs
    have he : B.stop s env'.board env'.world = B.stop s env.board env.world := by
      rw [← h.world]
      exact hB.stop s env.world h.contents.symm
    refine ⟨r, Link.Extends.refl r, ?_⟩
    simp only [stop, he]
    exact (h.replace (.leaf hl rfl fun _ ↦ rfl) (by simp) (by simp)).after _
  | composite tag life kind resume children =>
    obtain ⟨life', pairs, rfl, rfl, hl, hp⟩ := h.head.composite_left
    have hopen := h.openComposite hp
    have hpairs : ∀ p ∈ pairs, AbortsOnward B part strict p.1 p.2 :=
      fun p hp ↦ ih p.1 (List.mem_map_of_mem hp) p.2
    cases kind with
    | parallel mode => exact (stopRunning_onward hpairs hopen).composite hl
    | sequencer => exact (stopRunningAt_onward hpairs resume hopen).composite hl
    | selector => exact (stopRunningAt_onward hpairs resume hopen).composite hl
  | decorator tag life kind memory child =>
    cases child with
    | none =>
      obtain ⟨life', memory', rfl, -⟩ := h.head.decorator_none_left
      exact ⟨r, Link.Extends.refl r, h⟩
    | some c =>
      obtain ⟨life', memory', c', rfl, hl, hm, hc, hchild⟩ := h.head.decorator_some_left
      have hmem : c ∈ (decorator tag life kind memory (some c)).children := by simp [children]
      have hiff : c.started = true ↔ c'.started = true := by rw [hchild.started_eq]
      have hplain := (abort_if_onward h.openDecorator (ih c hmem c') hiff).decorator
      cases kind with
      | invert => exact hplain
      | succeeder => exact hplain
      | loop limit => exact hplain
      | «scoped» =>
        obtain ⟨r₁, hext, hin⟩ := h.enter
        obtain ⟨r₂, hext₂, hp⟩ := abort_if_onward hin (ih c hmem c') hiff
        have hboard := (evolves_abort_if (c.started = true)
          (evolves_abort (B := B) c (env.enter memory))).board.1
        have hboard' := (evolves_abort_if (c'.started = true)
          (evolves_abort (B := B) c' (env'.enter memory'))).board.1
        have hboth : r₂.Extends r := hext₂.trans hext
        exact ⟨r₂, hboth, (hp.leave hboard hboard' (h.board.mono hboth)).cleared⟩

/-- Aborts of twins go side by side. -/
theorem abort_onward (hB : B.Blind) (n n' : Node σ) : AbortsOnward B part strict n n' := by
  induction n using child_induction generalizing n' with
  | step n ih =>
    intro r rest env env' h
    exact abort_onward_of_stop h fun hs ↦ stop_onward hB hs ih h

/-- Aborting two children at the same index goes side by side. -/
theorem abortAt_onward (hB : B.Blind) (index : Nat)
    (h : Paired part strict r (pairs ++ rest) env env') :
    OnwardAll part strict r rest (abortAt B (pairs.map Prod.fst) index env)
      (abortAt B (pairs.map Prod.snd) index env') := by
  induction pairs generalizing rest index with
  | nil => exact ⟨r, [], Link.Extends.refl r, rfl, rfl, h⟩
  | cons p pairs ih =>
    cases index with
    | zero => exact .head (abort_onward hB p.1 p.2 h)
    | succ index => exact (ih index (h.perm List.perm_middle)).behind_first (Link.Extends.refl r)

end Node

end BehaviorTree
