import BehaviorTree.Proofs.Node.Step
import BehaviorTree.Proofs.Scope.Link

/-!
# Twins

Two subtrees are twins when they have the same shape and whatever they differ in cannot be told
from outside: identities of scopes up to a link, what a vacant memory stores, and, where no
activation is open, whatever a start resets. Probing twins gives the same answers.
-/

namespace BehaviorTree

variable {ο σ κ ω : Type}

/-- Hooks that see of a blackboard only what is in its scopes. -/
structure Behavior.Blind (B : Behavior ο σ ω) : Prop where
  start : ∀ (s : σ) {b b' : Blackboard} (w : ω), b.contents = b'.contents →
    B.start s b w = B.start s b' w
  run : ∀ (s : σ) {b b' : Blackboard} (w : ω), b.contents = b'.contents →
    B.run s b w = B.run s b' w
  stop : ∀ (s : σ) {b b' : Blackboard} (w : ω), b.contents = b'.contents →
    B.stop s b w = B.stop s b' w
  evaluate : ∀ (s : σ) {b b' : Blackboard} (w : ω), b.contents = b'.contents →
    B.evaluate s b w = B.evaluate s b' w

/-- Hooks of which a start and a probe depend on no more than a part of the leaf's state. -/
structure Behavior.Resets (B : Behavior ο σ ω) (part : σ → κ) : Prop where
  start : ∀ {s s' : σ} (b : Blackboard) (w : ω), part s = part s' → B.start s b w = B.start s' b w
  evaluate : ∀ {s s' : σ} (b : Blackboard) (w : ω), part s = part s' →
    B.evaluate s b w = B.evaluate s' b w

/-- Whether two lives agree in what others see of them, or altogether if that is asked. -/
structure Life.Alike (strict : Prop) (l l' : Life) : Prop where
  started : l.started = l'.started
  running : l.state = .running ↔ l'.state = .running
  same : strict → l = l'

private theorem Life.Alike.refl (strict : Prop) (l : Life) : l.Alike strict l :=
  ⟨rfl, Iff.rfl, fun _ ↦ rfl⟩

namespace Node

/-- Whether two nodes agree apart from their children. Leaves agree in a part of their states, and
altogether while they are started; so do the counts of decorators. -/
inductive Alike (part : σ → κ) (strict : Prop) (r : Link) : Node σ → Node σ → Prop where
  | leaf {tag : Tag} {life life' : Life} {s s' : σ} (hl : life.Alike strict life')
      (hp : part s = part s') (hs : life.started = true → s = s') :
      Alike part strict r (leaf tag life s) (leaf tag life' s')
  | composite {tag : Tag} {life life' : Life} {kind : CompositeKind} {resume : Nat}
      {children children' : List (Node σ)} (hl : life.Alike strict life') :
      Alike part strict r (composite tag life kind resume children)
        (composite tag life' kind resume children')
  | decorator {tag : Tag} {life life' : Life} {kind : DecoratorKind} {memory memory' : Memory}
      {child child' : Option (Node σ)} (hl : life.Alike strict life')
      (hm : memory.Alike r memory')
      (hc : strict ∨ life.started = true → memory.count = memory'.count) :
      Alike part strict r (decorator tag life kind memory child)
        (decorator tag life' kind memory' child')

/-- Whether two subtrees agree node by node. -/
inductive Twins (part : σ → κ) (strict : Prop) (r : Link) : Node σ → Node σ → Prop where
  | intro {n n' : Node σ} (head : n.Alike part strict r n') (pairs : List (Node σ × Node σ))
      (left : n.children = pairs.map Prod.fst) (right : n'.children = pairs.map Prod.snd)
      (below : ∀ p ∈ pairs, Twins part strict r p.1 p.2) : Twins part strict r n n'

variable {part : σ → κ} {strict : Prop} {r : Link}

private theorem Alike.tag_eq {n n' : Node σ} (h : n.Alike part strict r n') : n.tag = n'.tag := by
  cases h <;> rfl

private theorem Alike.life {n n' : Node σ} (h : n.Alike part strict r n') :
    n.life.Alike strict n'.life := by
  cases h with
  | leaf hl => exact hl
  | composite hl => exact hl
  | decorator hl => exact hl

namespace Twins

/-- Twins have lives that are alike. -/
theorem life {n n' : Node σ} (h : Twins part strict r n n') : n.life.Alike strict n'.life := by
  cases h with
  | intro head => exact head.life

/-- Of twins, both are started or none. -/
theorem started_eq {n n' : Node σ} (h : Twins part strict r n n') : n.started = n'.started :=
  h.life.started

private theorem flags_eq {n n' : Node σ} (h : Twins part strict r n n') : n.flags = n'.flags := by
  cases h with
  | intro head => exact congrArg Tag.flags head.tag_eq

/-! ### Building twins -/

/-- Leaves that agree in their part, and in all if started, are twins. -/
theorem leaf {tag : Tag} {life life' : Life} {s s' : σ} (hl : life.Alike strict life')
    (hp : part s = part s') (hs : life.started = true → s = s') :
    Twins part strict r (.leaf tag life s) (.leaf tag life' s') :=
  .intro (.leaf hl hp hs) [] rfl rfl fun _ hp ↦ by cases hp

/-- Composites of twins are twins. -/
theorem composite {tag : Tag} {life life' : Life} {kind : CompositeKind} {resume : Nat}
    {pairs : List (Node σ × Node σ)} (hl : life.Alike strict life')
    (hb : ∀ p ∈ pairs, Twins part strict r p.1 p.2) :
    Twins part strict r (.composite tag life kind resume (pairs.map Prod.fst))
      (.composite tag life' kind resume (pairs.map Prod.snd)) :=
  .intro (.composite hl) pairs rfl rfl hb

/-- Decorators without children, with memories that are alike, are twins. -/
theorem decorator_none {tag : Tag} {life life' : Life} {kind : DecoratorKind}
    {memory memory' : Memory} (hl : life.Alike strict life') (hm : memory.Alike r memory')
    (hc : strict ∨ life.started = true → memory.count = memory'.count) :
    Twins part strict r (.decorator tag life kind memory none)
      (.decorator tag life' kind memory' none) :=
  .intro (.decorator hl hm hc) [] rfl rfl fun _ hp ↦ by cases hp

/-- Decorators of twins, with memories that are alike, are twins. -/
theorem decorator_some {tag : Tag} {life life' : Life} {kind : DecoratorKind}
    {memory memory' : Memory} {c c' : Node σ} (hl : life.Alike strict life')
    (hm : memory.Alike r memory')
    (hc : strict ∨ life.started = true → memory.count = memory'.count)
    (h : Twins part strict r c c') :
    Twins part strict r (.decorator tag life kind memory (some c))
      (.decorator tag life' kind memory' (some c')) := by
  refine .intro (.decorator hl hm hc) [(c, c')] rfl rfl fun p hp ↦ ?_
  rw [List.mem_singleton.mp hp]
  exact h

/-! ### Taking twins apart -/

/-- The twin of a leaf is a leaf. -/
theorem leaf_left {tag : Tag} {life : Life} {s : σ} {n' : Node σ}
    (h : Twins part strict r (.leaf tag life s) n') :
    ∃ life' s', n' = .leaf tag life' s' ∧ life.Alike strict life' ∧ part s = part s' ∧
      (life.started = true → s = s') := by
  cases h with
  | intro head =>
    cases head with
    | leaf hl hp hs => exact ⟨_, _, rfl, hl, hp, hs⟩

/-- The twin of a composite is a composite of the twins of its children. -/
theorem composite_left {tag : Tag} {life : Life} {kind : CompositeKind} {resume : Nat}
    {children : List (Node σ)} {n' : Node σ}
    (h : Twins part strict r (.composite tag life kind resume children) n') :
    ∃ (life' : Life) (pairs : List (Node σ × Node σ)), children = pairs.map Prod.fst ∧
      n' = .composite tag life' kind resume (pairs.map Prod.snd) ∧ life.Alike strict life' ∧
      ∀ p ∈ pairs, Twins part strict r p.1 p.2 := by
  cases h with
  | intro head pairs left right below =>
    cases head with
    | composite hl => exact ⟨_, pairs, left, congrArg _ right, hl, below⟩

/-- The twin of a decorator without a child is one without a child. -/
theorem decorator_none_left {tag : Tag} {life : Life} {kind : DecoratorKind} {memory : Memory}
    {n' : Node σ} (h : Twins part strict r (.decorator tag life kind memory none) n') :
    ∃ life' memory', n' = .decorator tag life' kind memory' none ∧ life.Alike strict life' ∧
      memory.Alike r memory' ∧ (strict ∨ life.started = true → memory.count = memory'.count) := by
  cases h with
  | intro head pairs left right below =>
    cases head with
    | @decorator _ _ life' _ _ memory' _ child' hl hm hc =>
      obtain rfl : pairs = [] := List.map_eq_nil_iff.mp left.symm
      obtain rfl : child' = none := Option.toList_eq_nil_iff.mp right
      exact ⟨life', memory', rfl, hl, hm, hc⟩

/-- The twin of a decorator with a child is one with the twin of that child. -/
theorem decorator_some_left {tag : Tag} {life : Life} {kind : DecoratorKind} {memory : Memory}
    {c n' : Node σ} (h : Twins part strict r (.decorator tag life kind memory (some c)) n') :
    ∃ life' memory' c', n' = .decorator tag life' kind memory' (some c') ∧
      life.Alike strict life' ∧ memory.Alike r memory' ∧
      (strict ∨ life.started = true → memory.count = memory'.count) ∧
      Twins part strict r c c' := by
  cases h with
  | intro head pairs left right below =>
    cases head with
    | @decorator _ _ life' _ _ memory' _ child' hl hm hc =>
      obtain ⟨⟨d, d'⟩, rfl⟩ : ∃ p, pairs = [p] := by
        have hlen := congrArg List.length left
        rw [List.length_map] at hlen
        exact List.length_eq_one_iff.mp hlen.symm
      obtain rfl : c = d := by simpa [children] using left
      have hs : child' = some d' := by simpa [children] using right
      exact ⟨life', memory', d', by rw [hs], hl, hm, hc, below (c, d') (by simp)⟩

/-! ### Keeping twins -/

/-- Twins that store no scope of a new pair stay twins. -/
theorem insert {a b : ScopeId} {n n' : Node σ} (h : Twins part strict r n n')
    (ha : n.stores a = 0) (hb : n'.stores b = 0) : Twins part strict (r.insert a b) n n' := by
  induction h with
  | @intro n n' head pairs left right below ih =>
    rw [stores_eq] at ha hb
    have hpairs : ∀ p ∈ pairs, Twins part strict (r.insert a b) p.1 p.2 := by
      intro p hp
      have hl : p.1 ∈ n.children := by rw [left]; exact List.mem_map_of_mem hp
      have hr : p.2 ∈ n'.children := by rw [right]; exact List.mem_map_of_mem hp
      have hla := stores_le_storesAll hl a
      have hrb := stores_le_storesAll hr b
      exact ih p hp (by omega) (by omega)
    refine .intro ?_ pairs left right hpairs
    cases head with
    | leaf hl hp hs => exact .leaf hl hp hs
    | composite hl => exact .composite hl
    | decorator hl hm hc =>
      refine .decorator hl (hm.insert ?_ ?_) hc
      · exact Nat.eq_zero_of_add_eq_zero_right ha
      · exact Nat.eq_zero_of_add_eq_zero_right hb

/-- Twins stay twins when both are given one life, unless it opens an activation. -/
theorem withLife {n n' : Node σ} {life : Life} (h : Twins part strict r n n')
    (hs : life.started = true → n.started = true) :
    Twins part strict r (n.withLife life) (n'.withLife life) := by
  cases h with
  | intro head pairs left right below =>
    refine .intro ?_ pairs (by rw [children_withLife, left])
      (by rw [children_withLife, right]) below
    cases head with
    | leaf hl hp hst => exact .leaf (.refl _ _) hp fun h ↦ hst (hs h)
    | composite hl => exact .composite (.refl _ _)
    | decorator hl hm hc => exact .decorator (.refl _ _) hm fun h ↦ hc (h.imp_right hs)

/-! ### Probing twins -/

variable {B : Behavior ο σ ω}

/-- Twins answer a probe alike. -/
theorem evaluate_eq (hB : B.Blind) (hR : B.Resets part) (hr : r.Matching) {n n' : Node σ}
    (h : Twins part strict r n n') {b b' : Blackboard} (hb : b.Alike r b') (w : ω) :
    n.evaluate B b w = n'.evaluate B b' w := by
  induction n using child_induction generalizing n' b b' w with
  | step n ih =>
    cases n with
    | leaf tag life s =>
      obtain ⟨life', s', rfl, -, hp, -⟩ := h.leaf_left
      exact (hB.evaluate s w hb.contents).trans (hR.evaluate b' w hp)
    | composite tag life kind resume children =>
      obtain ⟨life', pairs, rfl, rfl, -, -⟩ := h.composite_left
      rfl
    | decorator tag life kind memory child =>
      cases child with
      | none =>
        obtain ⟨life', memory', rfl, -⟩ := h.decorator_none_left
        rfl
      | some child =>
        obtain ⟨life', memory', c', rfl, -, hm, -, hc⟩ := h.decorator_some_left
        have hchild {d d' : Blackboard} (hd : d.Alike r d') :=
          ih child (by simp [children]) hc hd w
        cases kind with
        | invert => simp only [evaluate, hchild hb]
        | succeeder => simp only [evaluate, hchild hb]
        | loop limit => exact hchild hb
        | «scoped» => exact hchild (hm.probeBoard hr hb)

/-- Probing lists of twins gives the same hit. -/
theorem probe_eq (hB : B.Blind) (hR : B.Resets part) (hr : r.Matching)
    {pairs : List (Node σ × Node σ)} (h : ∀ p ∈ pairs, Twins part strict r p.1 p.2)
    {b b' : Blackboard} (hb : b.Alike r b') (flag : Flags → Bool) (wanted : Status) (w : ω) :
    probe B flag wanted (pairs.map Prod.fst) b w =
      probe B flag wanted (pairs.map Prod.snd) b' w := by
  induction pairs generalizing w with
  | nil => rfl
  | cons p rest ih =>
    have hp := h p (by simp)
    have hrest := ih fun q hq ↦ h q (by simp [hq])
    simp only [List.map_cons, probe, hp.flags_eq, hp.evaluate_eq hB hR hr hb w, hrest]

end Twins

end Node

end BehaviorTree
