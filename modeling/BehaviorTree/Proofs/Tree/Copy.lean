import BehaviorTree.Proofs.Node.Projection
import BehaviorTree.Proofs.Pool.Supply
import BehaviorTree.Proofs.Tree.Projection
import BehaviorTree.Tree.Instance

/-!
# Copies of subtrees

A copy is a subtree of unused nodes, of the shape of its model, with leaves that were bound to the
owner. The scopes it stores were in the pool. From two pools in which each free node lies in the
stack of its identifier the copies agree, and so do the errors.
-/

namespace BehaviorTree

variable {ο σ τ κ ω ψ : Type}

/-- Results that agree under maps are the same error, or values that agree. -/
theorem map_eq_map_cases {ε α β γ : Type} {f : α → γ} {f' : β → γ} {r : Except ε α}
    {r' : Except ε β} (h : r.map f = r'.map f') :
    (∃ e, r = .error e ∧ r' = .error e) ∨ ∃ a a', r = .ok a ∧ r' = .ok a' ∧ f a = f' a' := by
  cases r with
  | error e =>
    cases r' with
    | error e' => exact .inl ⟨e, rfl, by rw [Except.error.inj h]⟩
    | ok a' => cases h
  | ok a =>
    cases r' with
    | error e' => cases h
    | ok a' => exact .inr ⟨a, a', rfl, rfl, Except.ok.inj h⟩

namespace Node

/-- All copies are made the same way: a shell, and the copies of the children below it. -/
theorem copy_eq (B : Behavior ο σ ω) (owner : ο) (n : Node σ) (p : Pool σ) (w : ω) :
    n.copy B owner p w = n.copyWith B owner (copies B owner n.children) p w := by
  cases n with
  | leaf => rfl
  | composite => rfl
  | decorator tag life kind memory child =>
    cases child with
    | none => rfl
    | some child =>
      refine congrArg (fun f ↦ copyWith B owner _ f p w) ?_
      funext p w
      simp only [children, Option.toList_some, copies]
      obtain ⟨r, p', w'⟩ := copy B owner child p w
      cases r <;> rfl

/-! ### Putting children in place -/

private theorem frame_withChildren (f : σ → κ) (n : Node σ) (cs : List (Node σ)) :
    (n.withChildren cs).frame f = (n.frame f).withChildren (cs.map (frame f)) := by
  cases n with
  | leaf => rfl
  | composite => simp [withChildren, frame]
  | decorator => cases cs <;> simp [withChildren, frame]

/-- A subtree is its shell with its children put in place. -/
theorem map_frame_eq {τ : Type} (f : σ → κ) (g : κ → τ) (n : Node σ) :
    (n.frame f).map g =
      ((n.shell.frame f).map g).withChildren (n.children.map fun c ↦ (c.frame f).map g) := by
  cases n with
  | leaf => rfl
  | composite => simp [withChildren, frame, shell, map, children]
  | decorator _ _ _ _ child => cases child <;> simp [withChildren, frame, shell, map, children]

private theorem allUnused_withChildren {n : Node σ} {cs : List (Node σ)} (hn : n.AllUnused)
    (hc : ∀ c ∈ cs, AllUnused c) : (n.withChildren cs).AllUnused := by
  have hu := hn.here
  cases n with
  | leaf => exact hn
  | composite => exact everywhere_iff.mpr ⟨hu, hc⟩
  | decorator =>
    refine everywhere_iff.mpr ⟨hu, fun c hm ↦ hc c ?_⟩
    exact List.mem_of_head? (Option.mem_toList.mp hm)

private theorem stores_withChildren_le (n : Node σ) (cs : List (Node σ)) (i : ScopeId) :
    (n.withChildren cs).stores i ≤ n.stores i + storesAll cs i := by
  cases n with
  | leaf => exact Nat.zero_le _
  | composite => simp [withChildren]
  | decorator =>
    cases cs with
    | nil => simp [withChildren, stores_decorator]
    | cons c rest =>
      rw [withChildren, List.head?_cons, stores_decorator_some, stores_decorator, storesAll_cons]
      omega

/-! ### One node -/

/-- A shell of a leaf is the leaf with a fresh life. -/
theorem ShellOf.leaf_eq {n : Node σ} {tag : Tag} {life : Life} {state : σ}
    (h : n.ShellOf (leaf tag life state)) : n = leaf tag .fresh state := by
  have hf := h.frame
  have hl := h.unused.here.life_eq
  cases n with
  | leaf tag' life' state' =>
    simp only [Node.frame, recast_leaf, shell, leaf.injEq, true_and] at hf
    rw [hf.1, hf.2]
    exact congrArg (leaf tag · state) hl
  | composite => simp [Node.frame, shell] at hf
  | decorator => simp [Node.frame, shell] at hf

/-- A shell of a node that is no leaf is no leaf, and has nothing to be bound. -/
theorem ShellOf.awake_eq {n model : Node σ} (h : n.ShellOf model) (hm : model.leaf? = none)
    (B : Behavior ο σ ω) (owner : ο) (w : ω) : n.awake B owner w = (.ok n, w) := by
  have hf := h.frame
  cases n with
  | leaf =>
    cases model with
    | leaf => cases hm
    | composite => simp [Node.frame, shell] at hf
    | decorator => simp [Node.frame, shell] at hf
  | composite => rfl
  | decorator => rfl

/-- What comes of taking the shell of a node from a pool and binding it. -/
structure Bound (part : σ → κ) (bound : κ → κ) (model : Node σ) (p : Pool σ)
    (r : Except CloneError (Node σ) × Pool σ × ω) : Prop where
  unused : ∀ n, r.1 = .ok n → n.AllUnused
  frame : ∀ n, r.1 = .ok n → n.frame part = (model.shell.frame part).map bound
  stores : ∀ i, storesOk r.1 i + r.2.1.stores i ≤ p.stores i
  keyed : p.Keyed → r.2.1.Keyed

/-- What comes of copying a subtree from a pool. -/
structure Copied (part : σ → κ) (bound : κ → κ) (model : Node σ) (p : Pool σ)
    (r : Except CloneError (Node σ) × Pool σ × ω) : Prop where
  unused : ∀ c, r.1 = .ok c → c.AllUnused
  frame : ∀ c, r.1 = .ok c → c.frame part = (model.frame part).map bound
  stores : ∀ i, storesOk r.1 i + r.2.1.stores i ≤ p.stores i
  keyed : p.Keyed → r.2.1.Keyed

/-- What comes of copying several subtrees from a pool. -/
structure CopiedAll (part : σ → κ) (bound : κ → κ) (models : List (Node σ)) (p : Pool σ)
    (r : Copies σ ω) : Prop where
  unused : ∀ c ∈ r.children, c.AllUnused
  frame : r.failure = none →
    r.children.map (Node.frame part) = models.map fun n ↦ (n.frame part).map bound
  stores : ∀ i, storesAll r.children i + r.pool.stores i ≤ p.stores i
  keyed : p.Keyed → r.pool.Keyed

variable {B : Behavior ο σ ω} {owner : ο} {part : σ → κ} {bound : κ → κ}

private theorem copiedAll_copies {ns : List (Node σ)}
    (ih : ∀ c ∈ ns, ∀ p w, Copied part bound c p (c.copy B owner p w)) (p : Pool σ) (w : ω) :
    CopiedAll part bound ns p (copies B owner ns p w) := by
  induction ns generalizing p w with
  | nil =>
    refine ⟨?_, fun _ ↦ rfl, fun i ↦ ?_, fun h ↦ h⟩
    · intro c hc
      cases hc
    · exact Nat.le_of_eq (Nat.zero_add _)
  | cons c rest rest_ih =>
    have hc := ih c (by simp) p w
    simp only [copies]
    generalize c.copy B owner p w = x at hc ⊢
    obtain ⟨r, p', w'⟩ := x
    cases r with
    | error e =>
      refine ⟨?_, ?_, hc.stores, hc.keyed⟩
      · rintro d ⟨⟩
      · rintro ⟨⟩
    | ok c' =>
      have hr := rest_ih (fun d hd ↦ ih d (by simp [hd])) p' w'
      refine ⟨?_, fun h ↦ ?_, fun i ↦ ?_, fun h ↦ hr.keyed (hc.keyed h)⟩
      · intro d hd
        rcases List.mem_cons.mp hd with rfl | hd
        · exact hc.unused d rfl
        · exact hr.unused d hd
      · rw [List.map_cons, List.map_cons, hc.frame c' rfl, hr.frame h]
      · have h₁ : c'.stores i + p'.stores i ≤ p.stores i := hc.stores i
        have h₂ := hr.stores i
        rw [storesAll_cons]
        show _ + (copies B owner rest p' w').pool.stores i ≤ _
        omega

section

variable (hA : ∀ s w s', (B.awake owner s w).1 = .ok s' → part s' = bound (part s))

include hA

/-- A shell that is taken from a pool and bound is unused, has the frame of the model, and stores no
scope that the pool did not. -/
theorem bound_acquireAwake (model : Node σ) (p : Pool σ) (w : ω) :
    Bound part bound model p (model.acquireAwake B owner p w) := by
  have hs := p.supplied_acquire model
  unfold acquireAwake
  generalize p.acquire model = x at hs ⊢
  obtain ⟨r, p'⟩ := x
  cases r with
  | error e => exact ⟨(by rintro n ⟨⟩), (by rintro n ⟨⟩), hs.stores, fun h ↦ (hs.keyed h).2⟩
  | ok n =>
    have hshell := hs.shell n rfl
    have hframe : n.frame part = model.shell.frame part := by
      rw [← frame_frame (fun s ↦ s) part, hshell.frame]
    cases model with
    | leaf tag life state =>
      obtain rfl := hshell.leaf_eq
      have hpool (i : ScopeId) : 0 + p'.stores i ≤ p.stores i := hs.stores i
      simp only [awake]
      cases ha : B.awake owner state w with
      | mk r w' =>
        cases r with
        | ok s =>
          refine ⟨?_, ?_, hpool, fun h ↦ (hs.keyed h).2⟩
          · rintro n ⟨⟩
            exact allUnused_newLeaf tag s
          · rintro n ⟨⟩
            simp [Node.frame, shell, map, hA state w s (by rw [ha])]
        | error e =>
          refine ⟨(by rintro n ⟨⟩), (by rintro n ⟨⟩), fun i ↦ ?_, fun h ↦ (hs.keyed h).2.release _⟩
          have hr := p'.stores_release_le (leaf tag .fresh state) i
          have hi := hpool i
          rw [stores_leaf] at hr
          show 0 + (p'.release (leaf tag .fresh state)).stores i ≤ _
          omega
    | composite tag life kind resume children =>
      simp only [hshell.awake_eq rfl]
      refine ⟨?_, ?_, hs.stores, fun h ↦ (hs.keyed h).2⟩
      · rintro m ⟨⟩
        exact hshell.unused
      · rintro m ⟨⟩
        rw [hframe]
        simp [Node.frame, shell, map]
    | decorator tag life kind memory child =>
      simp only [hshell.awake_eq rfl]
      refine ⟨?_, ?_, hs.stores, fun h ↦ (hs.keyed h).2⟩
      · rintro m ⟨⟩
        exact hshell.unused
      · rintro m ⟨⟩
        rw [hframe]
        simp [Node.frame, shell, map]

private theorem copied_copyWith {model : Node σ} {copyChildren : Pool σ → ω → Copies σ ω}
    (hc : ∀ p w, CopiedAll part bound model.children p (copyChildren p w)) (p : Pool σ) (w : ω) :
    Copied part bound model p (model.copyWith B owner copyChildren p w) := by
  have hb := bound_acquireAwake hA model p w
  unfold copyWith
  generalize model.acquireAwake B owner p w = x at hb ⊢
  obtain ⟨r, p', w'⟩ := x
  cases r with
  | error e => exact ⟨(by rintro n ⟨⟩), (by rintro n ⟨⟩), hb.stores, hb.keyed⟩
  | ok n =>
    have hcopies := hc p' w'
    have h₁ (i : ScopeId) : n.stores i + p'.stores i ≤ p.stores i := hb.stores i
    simp only [adopt]
    cases hf : (copyChildren p' w').failure with
    | none =>
      refine ⟨?_, ?_, fun i ↦ ?_, fun h ↦ hcopies.keyed (hb.keyed h)⟩
      · rintro c ⟨⟩
        exact allUnused_withChildren (hb.unused n rfl) hcopies.unused
      · rintro c ⟨⟩
        rw [frame_withChildren, hb.frame n rfl, hcopies.frame hf, map_frame_eq part bound model]
      · have hw := n.stores_withChildren_le (copyChildren p' w').children i
        have h₁ := h₁ i
        have h₂ := hcopies.stores i
        show (n.withChildren (copyChildren p' w').children).stores i +
          (copyChildren p' w').pool.stores i ≤ _
        omega
    | some e =>
      refine ⟨(by rintro n ⟨⟩), (by rintro n ⟨⟩), fun i ↦ ?_,
        fun h ↦ (hcopies.keyed (hb.keyed h)).release _⟩
      have hw := n.stores_withChildren_le (copyChildren p' w').children i
      have hr := (copyChildren p' w').pool.stores_release_le
        (n.withChildren (copyChildren p' w').children) i
      have h₁ := h₁ i
      have h₂ := hcopies.stores i
      show 0 + ((copyChildren p' w').pool.release _).stores i ≤ _
      omega

/-- A copy is unused and has the frame of its model, bound to the owner; the scopes it stores were
in the pool. -/
theorem copied_copy (n : Node σ) (p : Pool σ) (w : ω) :
    Copied part bound n p (n.copy B owner p w) := by
  induction n using child_induction generalizing p w with
  | step n ih =>
    rw [copy_eq]
    exact copied_copyWith hA (copiedAll_copies ih) p w

end

/-! ### What copying keeps of a pool -/

section

variable {P : Pool σ → Prop} {p : Pool σ}

private theorem copies_keep {ns : List (Node σ)}
    (ih : ∀ c ∈ ns, ∀ p : Pool σ, P p → ∀ w : ω, P (c.copy B owner p w).2.1) (hp : P p) (w : ω) :
    P (copies B owner ns p w).pool := by
  induction ns generalizing p w with
  | nil => exact hp
  | cons c rest rest_ih =>
    have hc := ih c List.mem_cons_self p hp w
    simp only [copies]
    generalize c.copy B owner p w = x at hc ⊢
    obtain ⟨r, q, v⟩ := x
    cases r with
    | error e => exact hc
    | ok d => exact rest_ih (fun e he ↦ ih e (List.mem_cons_of_mem _ he)) hc v

variable (hacquire : ∀ p model, P p → P (p.acquire model).2)
  (hrelease : ∀ p n, P p → P (p.release n))

include hacquire hrelease

private theorem acquireAwake_keeps (hp : P p) (model : Node σ) (w : ω) :
    P (model.acquireAwake B owner p w).2.1 := by
  have hacquired := hacquire p model hp
  unfold acquireAwake
  generalize p.acquire model = x at hacquired ⊢
  obtain ⟨r, q⟩ := x
  cases r with
  | error e => exact hacquired
  | ok n =>
    cases ha : n.awake B owner w with
    | mk r' w' =>
      cases r' with
      | error e => simpa [ha] using hrelease q n hacquired
      | ok m => simpa [ha] using hacquired

/-- What is kept of a pool by handing out and by taking back is kept when a subtree is copied. -/
theorem copy_keeps (hp : P p) (n : Node σ) (w : ω) : P (n.copy B owner p w).2.1 := by
  induction n using child_induction generalizing p w with
  | step n ih =>
    have ha : P (n.acquireAwake B owner p w).2.1 := acquireAwake_keeps hacquire hrelease hp n w
    rw [copy_eq, copyWith]
    generalize n.acquireAwake B owner p w = x at ha ⊢
    obtain ⟨r, q, v⟩ := x
    cases r with
    | error e => exact ha
    | ok m =>
      have hcopies : P (copies B owner n.children q v).pool :=
        copies_keep (P := P) (fun c hc p hp w ↦ ih c hc hp w) ha v
      simp only [adopt]
      cases (copies B owner n.children q v).failure with
      | none => exact hcopies
      | some e => exact hrelease _ _ hcopies

end

/-! ### Copies from two pools -/

private theorem keyed_copy (B : Behavior ο σ ω) (owner : ο) (n : Node σ) {p : Pool σ} (hp : p.Keyed)
    (w : ω) : (n.copy B owner p w).2.1.Keyed :=
  copy_keeps (fun p model h ↦ ((p.supplied_acquire model).keyed h).2)
    (fun _ n h ↦ h.release n) hp n w

private theorem keyed_acquireAwake (B : Behavior ο σ ω) (owner : ο) (n : Node σ) {p : Pool σ}
    (hp : p.Keyed) (w : ω) : (n.acquireAwake B owner p w).2.1.Keyed :=
  acquireAwake_keeps (fun p model h ↦ ((p.supplied_acquire model).keyed h).2)
    (fun _ n h ↦ h.release n) hp n w

section

variable {A : Behavior ο σ ω} {B : Behavior ο τ ψ} {f : σ → τ} {g : ω → ψ} {p : Pool σ}
  {p' : Pool τ}

/-- Whether two copies agree: in the error, or in all that is not left over from former uses; and
in what became of the world. The first one is seen through projections. -/
def Agree (f : σ → τ) (g : ω → ψ) (r : Except CloneError (Node σ) × Pool σ × ω)
    (r' : Except CloneError (Node τ) × Pool τ × ψ) : Prop :=
  r.1.map (Node.frame f) = r'.1.map (Node.frame fun s ↦ s) ∧ g r.2.2 = r'.2.2

/-- Whether two copies of several subtrees agree. -/
structure AgreeAll (f : σ → τ) (g : ω → ψ) (r : Copies σ ω) (r' : Copies τ ψ) : Prop where
  failure : r.failure = r'.failure
  world : g r.world = r'.world
  frames : r.failure = none →
    r.children.map (Node.frame f) = r'.children.map (Node.frame fun s ↦ s)

private theorem shell_map (n : Node σ) : (n.map f).shell = n.shell.frame f := by
  cases n <;> simp [shell, frame]

private theorem ShellOf.frame_eq {n model : Node σ} {n' : Node τ} (h : n.ShellOf model)
    (h' : n'.ShellOf (model.map f)) : n.frame f = n'.frame fun s ↦ s := by
  rw [← frame_frame (fun s ↦ s) f, h.frame, h'.frame, shell_map]

private theorem acquireAwake_agree (h : A.Projects B f g) (hp : p.Keyed) (hp' : p'.Keyed)
    (model : Node σ) (w : ω) :
    Agree f g (model.acquireAwake A owner p w) ((model.map f).acquireAwake B owner p' (g w)) := by
  have hs := p.supplied_acquire model
  have hs' := p'.supplied_acquire (model.map f)
  unfold acquireAwake
  generalize p.acquire model = x at hs ⊢
  generalize p'.acquire (model.map f) = x' at hs' ⊢
  obtain ⟨r, q⟩ := x
  obtain ⟨r', q'⟩ := x'
  obtain ⟨n, rfl⟩ : ∃ n, r = .ok n := (hs.keyed hp).1
  obtain ⟨n', rfl⟩ : ∃ n', r' = .ok n' := (hs'.keyed hp').1
  have hshell := hs.shell n rfl
  have hshell' := hs'.shell n' rfl
  have hframe := hshell.frame_eq hshell'
  cases model with
  | leaf tag life state =>
    rw [map_leaf] at hshell'
    obtain rfl := hshell.leaf_eq
    obtain rfl := hshell'.leaf_eq
    simp only [awake, h.awake]
    cases A.awake owner state w with
    | mk r w' => cases r <;> exact ⟨rfl, rfl⟩
  | composite =>
    rw [map_composite] at hshell'
    simp only [hshell.awake_eq rfl, hshell'.awake_eq rfl]
    exact ⟨congrArg Except.ok hframe, rfl⟩
  | decorator =>
    rw [map_decorator] at hshell'
    simp only [hshell.awake_eq rfl, hshell'.awake_eq rfl]
    exact ⟨congrArg Except.ok hframe, rfl⟩

private theorem copies_agree {ns : List (Node σ)}
    (ih : ∀ c ∈ ns, ∀ {p : Pool σ} {p' : Pool τ}, p.Keyed → p'.Keyed → ∀ w : ω,
      Agree f g (c.copy A owner p w) ((c.map f).copy B owner p' (g w)))
    (hp : p.Keyed) (hp' : p'.Keyed) (w : ω) :
    AgreeAll f g (copies A owner ns p w) (copies B owner (ns.map (map f)) p' (g w)) := by
  induction ns generalizing p p' w with
  | nil => exact ⟨rfl, rfl, fun _ ↦ rfl⟩
  | cons c rest rest_ih =>
    have hc := ih c (by simp) hp hp' w
    have hk := keyed_copy A owner c hp w
    have hk' := keyed_copy B owner (c.map f) hp' (g w)
    simp only [List.map_cons, copies]
    generalize c.copy A owner p w = x at hc hk ⊢
    generalize (c.map f).copy B owner p' (g w) = x' at hc hk' ⊢
    obtain ⟨r, q, v⟩ := x
    obtain ⟨r', q', v'⟩ := x'
    obtain ⟨hr, rfl⟩ : r.map _ = r'.map _ ∧ g v = v' := hc
    rcases map_eq_map_cases hr with ⟨e, rfl, rfl⟩ | ⟨d, d', rfl, rfl, hd⟩
    · exact ⟨rfl, rfl, fun _ ↦ rfl⟩
    · have hrest := rest_ih (fun e he ↦ ih e (by simp [he])) hk hk' v
      refine ⟨hrest.failure, hrest.world, fun hf ↦ ?_⟩
      rw [List.map_cons, List.map_cons, hd, hrest.frames hf]

private theorem copyWith_agree (h : A.Projects B f g) {model : Node σ}
    {copyChildren : Pool σ → ω → Copies σ ω} {copyChildren' : Pool τ → ψ → Copies τ ψ}
    (hc : ∀ {p : Pool σ} {p' : Pool τ}, p.Keyed → p'.Keyed → ∀ w,
      AgreeAll f g (copyChildren p w) (copyChildren' p' (g w)))
    (hp : p.Keyed) (hp' : p'.Keyed) (w : ω) :
    Agree f g (model.copyWith A owner copyChildren p w)
      ((model.map f).copyWith B owner copyChildren' p' (g w)) := by
  have hb : Agree f g (model.acquireAwake A owner p w)
    ((model.map f).acquireAwake B owner p' (g w)) := acquireAwake_agree h hp hp' model w
  have hk := keyed_acquireAwake A owner model hp w
  have hk' := keyed_acquireAwake B owner (model.map f) hp' (g w)
  unfold copyWith
  generalize model.acquireAwake A owner p w = x at hb hk ⊢
  generalize (model.map f).acquireAwake B owner p' (g w) = x' at hb hk' ⊢
  obtain ⟨r, q, v⟩ := x
  obtain ⟨r', q', v'⟩ := x'
  obtain ⟨hr, rfl⟩ : r.map _ = r'.map _ ∧ g v = v' := hb
  rcases map_eq_map_cases hr with ⟨e, rfl, rfl⟩ | ⟨n, n', rfl, rfl, hn⟩
  · exact ⟨rfl, rfl⟩
  · have hcopies := hc hk hk' v
    simp only [adopt, ← hcopies.failure]
    cases hf : (copyChildren q v).failure with
    | none =>
      refine ⟨congrArg Except.ok ?_, hcopies.world⟩
      rw [frame_withChildren, frame_withChildren, hn, hcopies.frames hf]
    | some e => exact ⟨rfl, hcopies.world⟩

/-- Copies from two pools with all nodes in their places agree. -/
theorem copy_agree (h : A.Projects B f g) (hp : p.Keyed) (hp' : p'.Keyed) (n : Node σ) (w : ω) :
    Agree f g (n.copy A owner p w) ((n.map f).copy B owner p' (g w)) := by
  induction n using child_induction generalizing p p' w with
  | step n ih =>
    rw [copy_eq, copy_eq, map, children_recast]
    exact copyWith_agree h (fun hp hp' w ↦
      copies_agree (fun c hc _ _ hp hp' ↦ ih c hc hp hp') hp hp' w) hp hp' w

end

end Node

/-! ### Instances -/

namespace Tree

/-- What comes of instantiating a prototype. -/
structure Instantiated (part : σ → κ) (bound : κ → κ) (t : Tree ο σ) (host : Host σ ω)
    (r : Except CloneError (Tree ο σ) × Host σ ω) : Prop where
  unused : ∀ x, r.1 = .ok x → x.root.AllUnused
  frame : ∀ x, r.1 = .ok x → x.root.frame part = (t.root.frame part).map bound
  stores : ∀ i, Node.storesOk (r.1.map Tree.root) i + r.2.pool.stores i ≤ host.pool.stores i
  keyed : host.pool.Keyed → r.2.pool.Keyed
  fresh : r.2.fresh = host.fresh

variable {B : Behavior ο σ ω} {owner : ο} {part : σ → κ} {bound : κ → κ}

/-- An instance is unused and has the frame of its prototype, bound to the owner; the scopes it
stores were in the pool. -/
theorem instantiated (hA : ∀ s w s', (B.awake owner s w).1 = .ok s' → part s' = bound (part s))
    (t : Tree ο σ) (host : Host σ ω) :
    Instantiated part bound t host (t.instantiate B owner host) := by
  unfold instantiate
  by_cases hi : t.isInstance = true
  · simp only [hi, if_true]
    refine ⟨(by rintro x ⟨⟩), (by rintro x ⟨⟩), fun i ↦ ?_, fun h ↦ h, rfl⟩
    exact Nat.le_of_eq (Nat.zero_add _)
  · have hc := Node.copied_copy hA t.root host.pool host.world
    simp only [hi, Bool.false_eq_true, if_false]
    generalize t.root.copy B owner host.pool host.world = r at hc ⊢
    obtain ⟨r, pool, w⟩ := r
    cases r with
    | error e => exact ⟨(by rintro x ⟨⟩), (by rintro x ⟨⟩), hc.stores, hc.keyed, rfl⟩
    | ok root =>
      refine ⟨?_, ?_, hc.stores, hc.keyed, rfl⟩
      · rintro x ⟨⟩
        exact hc.unused root rfl
      · rintro x ⟨⟩
        exact hc.frame root rfl

/-- Whatever the hooks do to the states of the leaves, all else in an instance is as in its
prototype. -/
theorem framed_instantiate (B : Behavior ο σ ω) (t : Tree ο σ) (owner : ο) (host : Host σ ω) :
    Instantiated (fun _ ↦ ()) (fun u ↦ u) t host (t.instantiate B owner host) :=
  instantiated (fun _ _ _ _ ↦ rfl) t host

/-- The nodes of an instance are unused. -/
theorem allUnused_of_made {t x : Tree ο σ} {host : Host σ ω}
    (h : (t.instantiate B owner host).1 = .ok x) : x.root.AllUnused :=
  (t.framed_instantiate B owner host).unused x h

/-- Making a tree leaves each free node in the stack of its identifier. -/
theorem keyed_instantiate (B : Behavior ο σ ω) (t : Tree ο σ) (owner : ο) {host : Host σ ω}
    (hk : host.pool.Keyed) : (t.instantiate B owner host).2.pool.Keyed :=
  (t.framed_instantiate B owner host).keyed hk

/-- Instances from two pools with all nodes in their places agree, and so do the errors. -/
theorem instantiate_agree {A : Behavior ο σ ω} {B : Behavior ο τ ψ} {f : σ → τ} {g : ω → ψ}
    (h : A.Projects B f g) {host : Host σ ω} {host' : Host τ ψ} (hp : host.pool.Keyed)
    (hp' : host'.pool.Keyed) (hw : host'.world = g host.world) (t : Tree ο σ) (owner : ο) :
    let r := t.instantiate A owner host
    let r' := (t.map f).instantiate B owner host'
    r.1.map (fun x ↦ x.root.frame f) = r'.1.map (fun x ↦ x.root.frame fun s ↦ s) ∧
      r'.2.world = g r.2.world := by
  unfold instantiate
  cases hi : t.isInstance with
  | true =>
    simp only [map, hi, if_true]
    exact ⟨rfl, hw⟩
  | false =>
    have hc : Node.Agree f g (t.root.copy A owner host.pool host.world)
        ((t.root.map f).copy B owner host'.pool (g host.world)) :=
      Node.copy_agree h hp hp' t.root host.world
    simp only [map, hi, Bool.false_eq_true, if_false, hw]
    generalize t.root.copy A owner host.pool host.world = r at hc ⊢
    generalize (t.root.map f).copy B owner host'.pool (g host.world) = r' at hc ⊢
    obtain ⟨r, q, w⟩ := r
    obtain ⟨r', q', w'⟩ := r'
    obtain ⟨hr, rfl⟩ : r.map _ = r'.map _ ∧ g w = w' := hc
    rcases map_eq_map_cases hr with ⟨e, rfl, rfl⟩ | ⟨root, root', rfl, rfl, hroot⟩
    · exact ⟨rfl, rfl⟩
    · exact ⟨congrArg Except.ok hroot, rfl⟩

end Tree

end BehaviorTree
