import BehaviorTree.Proofs.Node.Leaves
import BehaviorTree.Proofs.Pool.Balance
import BehaviorTree.Proofs.Tree.Copy

/-!
# Binding nodes in pre-order

Copying a subtree comes to binding its nodes one after the other, in pre-order and up to the first
that refuses: the world goes the same way and the error is that of the node that refused. A node was
drawn from the pool for each that was asked, and all of them come back if one refused
(`settled_copy`).
-/

namespace BehaviorTree

variable {ο σ ω : Type}

/-- What comes of binding nodes one after the other: those that were bound, the one that refused
with its reason, and the world. -/
structure Bindings (σ ω : Type) where
  bound : List (Node σ)
  refused : Option (Node σ × AwakeError)
  world : ω

namespace Bindings

/-- The identifiers of the nodes that were asked. -/
def asked (b : Bindings σ ω) : List NodeId := b.bound.map Node.id ++ b.refused.toList.map (·.1.id)

/-- The error of the node that refused. -/
def failure (b : Bindings σ ω) : Option CloneError :=
  b.refused.map fun r ↦ .awake r.1.id r.1.name r.2

/-- What comes of binding some nodes and, if none refused, others in the world that is left. -/
def andThen (b : Bindings σ ω) (next : ω → Bindings σ ω) : Bindings σ ω :=
  match b.refused with
  | some _ => b
  | none => let c := next b.world; { c with bound := b.bound ++ c.bound }

end Bindings

/-- What was copied of a single subtree. -/
def Copies.ofCopy : Except CloneError (Node σ) × Pool σ × ω → Copies σ ω
  | (.ok n, p, w) => ⟨[n], none, p, w⟩
  | (.error e, p, w) => ⟨[], some e, p, w⟩

namespace Node

/-- Binds nodes one after the other, up to the first that refuses. -/
def bindEach (B : Behavior ο σ ω) (owner : ο) : List (Node σ) → ω → Bindings σ ω
  | [], w => ⟨[], none, w⟩
  | n :: rest, w =>
    match n.awake B owner w with
    | (.error e, w) => ⟨[], some (n, e), w⟩
    | (.ok n, w) =>
      let b := bindEach B owner rest w
      { b with bound := n :: b.bound }

variable {B : Behavior ο σ ω} {owner : ο}

/-- Two lists of nodes are bound one after the other. -/
theorem bindEach_append (as bs : List (Node σ)) (w : ω) :
    bindEach B owner (as ++ bs) w = (bindEach B owner as w).andThen (bindEach B owner bs) := by
  induction as generalizing w with
  | nil => simp [bindEach, Bindings.andThen]
  | cons a as ih =>
    simp only [List.cons_append, bindEach]
    obtain ⟨r, w'⟩ := a.awake B owner w
    cases r with
    | error e => rfl
    | ok m =>
      simp only [ih]
      generalize bindEach B owner as w' = b
      obtain ⟨bound, refused, v⟩ := b
      cases refused <;> rfl

/-- Binding changes nothing that the author gave to a node. -/
theorem tag_awake {n m : Node σ} {w w' : ω} (h : n.awake B owner w = (.ok m, w')) :
    m.tag = n.tag := by
  cases n with
  | leaf tag life state =>
    simp only [awake] at h
    cases ha : B.awake owner state w with
    | mk r v =>
      rw [ha] at h
      cases r <;> cases h
      rfl
  | composite => cases h; rfl
  | decorator => cases h; rfl

/-- The nodes that were bound are those that were asked, in order. -/
theorem ids_bindEach {ns : List (Node σ)} {w : ω} (h : (bindEach B owner ns w).refused = none) :
    (bindEach B owner ns w).bound.map Node.id = ns.map Node.id := by
  induction ns generalizing w with
  | nil => rfl
  | cons n rest ih =>
    simp only [bindEach] at h ⊢
    cases ha : n.awake B owner w with
    | mk r w' =>
      cases r with
      | error e => rw [ha] at h; cases h
      | ok m =>
        simp only [ha] at h ⊢
        rw [List.map_cons, List.map_cons, ih h]
        exact congrArg (· :: _) (congrArg Tag.id (tag_awake ha))

/-! ### One node -/

/-- Whether a node holds just the given nodes when they are put below it. -/
def Holds (n : Node σ) (cs : List (Node σ)) : Prop := (n.withChildren cs).children = cs

/-- A node with the frame of a shell holds as many nodes as the model of the shell does. -/
theorem holds_of_frame {n model : Node σ}
    (h : n.frame (fun _ ↦ ()) = model.shell.frame fun _ ↦ ()) {cs : List (Node σ)}
    (hc : cs.length ≤ model.children.length) : n.Holds cs := by
  cases n with
  | leaf =>
    cases model with
    | leaf => exact (List.eq_nil_of_length_eq_zero (Nat.le_zero.mp hc)).symm
    | composite => simp [Node.frame, shell] at h
    | decorator => simp [Node.frame, shell] at h
  | composite => rfl
  | decorator =>
    cases model with
    | leaf => simp [Node.frame, shell] at h
    | composite => simp [Node.frame, shell] at h
    | decorator _ _ _ _ child =>
      have hone : cs.length ≤ 1 := Nat.le_trans hc (by cases child <;> simp [children])
      cases cs with
      | nil => rfl
      | cons c rest =>
        obtain rfl : rest = [] := by
          rw [List.length_cons] at hone
          exact List.eq_nil_of_length_eq_zero (by omega)
        rfl

/-- A shell holds as many nodes as its model does. -/
theorem ShellOf.holds {n model : Node σ} (h : n.ShellOf model) {cs : List (Node σ)}
    (hc : cs.length ≤ model.children.length) : n.Holds cs := by
  have hframe := congrArg (Node.frame fun _ ↦ ()) h.frame
  rw [frame_frame] at hframe
  exact holds_of_frame hframe hc

/-- A shell of a leaf has the leaf's state. -/
theorem ShellOf.leafStates_eq {n model : Node σ} (h : n.ShellOf model) :
    leafStates [n] = leafStates [model] := by
  have hf := h.frame
  cases model with
  | leaf =>
    obtain rfl := h.leaf_eq
    rfl
  | composite => cases n <;> first | rfl | simp [Node.frame, shell] at hf
  | decorator => cases n <;> first | rfl | simp [Node.frame, shell] at hf

private theorem ids_withChildren {n : Node σ} {cs : List (Node σ)} (h : n.Holds cs) :
    (n.withChildren cs).ids = n.id :: (preorders cs).map Node.id := by
  rw [ids, preorder_eq, show (n.withChildren cs).children = cs from h, List.map_cons]
  exact congrArg (· :: _) (congrArg Tag.id (n.tag_withChildren cs))

private theorem states_withChildren {n : Node σ} {cs : List (Node σ)} (h : n.Holds cs) :
    (n.withChildren cs).states = leafStates [n] ++ leafStates (preorders cs) := by
  rw [states_eq, show (n.withChildren cs).children = cs from h, leafStates_preorders]
  cases n <;> rfl

/-- What comes of taking a shell from a pool and binding it, in terms of binding the model. -/
inductive Fetched (B : Behavior ο σ ω) (owner : ο) (model : Node σ) (p : Pool σ) (w : ω) :
    Except CloneError (Node σ) × Pool σ × ω → Prop where
  | bound {n m : Node σ} {q : Pool σ} {w' : ω} (ha : model.awake B owner w = (.ok m, w'))
      (hd : p.Drawn q [model.id]) (hk : q.Keyed) (hid : n.id = model.id)
      (hs : leafStates [n] = leafStates [m])
      (hh : ∀ cs : List (Node σ), cs.length ≤ model.children.length → n.Holds cs) :
      Fetched B owner model p w (.ok n, q, w')
  | refused {e : AwakeError} {q : Pool σ} {w' : ω} (ha : model.awake B owner w = (.error e, w'))
      (ht : p.Traded q [model.id] []) (hk : q.Keyed) :
      Fetched B owner model p w (.error (.awake model.id model.name e), q, w')

private theorem fetched_acquireAwake {p : Pool σ} (hp : p.Keyed) (model : Node σ) (w : ω) :
    Fetched B owner model p w (model.acquireAwake B owner p w) := by
  have hs := p.supplied_acquire model
  have hd := Pool.drawn_acquire hp model
  unfold acquireAwake
  generalize p.acquire model = x at hs hd ⊢
  obtain ⟨r, q⟩ := x
  obtain ⟨⟨n, rfl⟩, hk⟩ : (∃ n, r = .ok n) ∧ q.Keyed := hs.keyed hp
  have hshell := hs.shell n rfl
  have hid : n.id = model.id := by
    have htag := congrArg tag hshell.frame
    rw [Node.frame, tag_recast, tag_shell] at htag
    exact congrArg Tag.id htag
  cases model with
  | leaf tag life state =>
    obtain rfl := hshell.leaf_eq
    simp only [awake]
    cases ha : B.awake owner state w with
    | mk r w' =>
      cases r with
      | ok s =>
        refine .bound (m := leaf tag life s) ?_ hd hk rfl rfl fun cs hc ↦ ?_
        · simp only [awake, ha]
          rfl
        · exact (List.eq_nil_of_length_eq_zero (Nat.le_zero.mp hc)).symm
      | error e =>
        refine .refused ?_ ?_ (hk.release _)
        · simp only [awake, ha]
          rfl
        · exact hd.traded.giveBack (q.refilled_release (leaf tag .fresh state))
  | composite =>
    simp only [hshell.awake_eq rfl]
    exact .bound rfl hd hk hid hshell.leafStates_eq fun cs hc ↦ hshell.holds hc
  | decorator =>
    simp only [hshell.awake_eq rfl]
    exact .bound rfl hd hk hid hshell.leafStates_eq fun cs hc ↦ hshell.holds hc

/-! ### Subtrees -/

/-- Whether copying subtrees comes to binding their nodes in pre-order. -/
structure Settled (B : Behavior ο σ ω) (owner : ο) (ns : List (Node σ)) (p : Pool σ) (w : ω)
    (c : Copies σ ω) : Prop where
  world : c.world = (bindEach B owner (preorders ns) w).world
  failure : c.failure = (bindEach B owner (preorders ns) w).failure
  traded : p.Traded c.pool (bindEach B owner (preorders ns) w).asked
    ((preorders c.children).map Node.id)
  keyed : c.pool.Keyed
  length : c.children.length ≤ ns.length
  ids : c.failure = none →
    (preorders c.children).map Node.id = (bindEach B owner (preorders ns) w).asked
  states : c.failure = none →
    leafStates (preorders c.children) = leafStates (bindEach B owner (preorders ns) w).bound

/-- The pre-order of one node alone is its own. -/
@[simp] theorem preorders_singleton (n : Node σ) : preorders [n] = n.preorder := by
  simp [preorders]

private theorem settled_nil {p : Pool σ} (hp : p.Keyed) (w : ω) :
    Settled B owner [] p w ⟨[], none, p, w⟩ :=
  ⟨rfl, rfl, (Pool.Drawn.nil p).traded, hp, Nat.le_refl _, fun _ ↦ rfl, fun _ ↦ rfl⟩

variable {as bs : List (Node σ)} {p : Pool σ} {w : ω} {c d : Copies σ ω}

/-- What was not asked because of a failure does not matter. -/
theorem Settled.append_of_failure (h : Settled B owner as p w c) (hf : c.failure ≠ none)
    (bs : List (Node σ)) : Settled B owner (as ++ bs) p w c := by
  have heq : bindEach B owner (preorders (as ++ bs)) w = bindEach B owner (preorders as) w := by
    rw [preorders_append, bindEach_append]
    have hr := h.failure
    generalize bindEach B owner (preorders as) w = b at hr ⊢
    obtain ⟨bound, refused, v⟩ := b
    cases refused with
    | none => exact absurd hr hf
    | some r => rfl
  refine ⟨?_, ?_, ?_, h.keyed, ?_, fun hn ↦ absurd hn hf, fun hn ↦ absurd hn hf⟩
  · rw [heq, h.world]
  · rw [heq, h.failure]
  · rw [heq]
    exact h.traded
  · rw [List.length_append]
    exact Nat.le_add_right_of_le h.length

/-- Copies that were made are followed by further copies. -/
theorem Settled.append (h : Settled B owner as p w c) (hf : c.failure = none)
    (h' : Settled B owner bs c.pool c.world d) :
    Settled B owner (as ++ bs) p w { d with children := c.children ++ d.children } := by
  have hr : (bindEach B owner (preorders as) w).refused = none := by
    have hb := h.failure
    rw [hf] at hb
    exact Option.map_eq_none_iff.mp hb.symm
  have heq : bindEach B owner (preorders (as ++ bs)) w =
      let b := bindEach B owner (preorders bs) c.world
      { b with bound := (bindEach B owner (preorders as) w).bound ++ b.bound } := by
    rw [preorders_append, bindEach_append, Bindings.andThen, hr, h.world]
  have hasked : (bindEach B owner (preorders (as ++ bs)) w).asked =
      (preorders c.children).map Node.id ++ (bindEach B owner (preorders bs) c.world).asked := by
    rw [heq, h.ids hf]
    simp only [Bindings.asked, hr, List.map_append, Option.toList_none, List.map_nil,
      List.append_nil, List.append_assoc]
  have hdrawn : p.Drawn c.pool ((preorders c.children).map Node.id) := by
    have ht := h.traded
    rw [← h.ids hf] at ht
    exact ht.drawn
  constructor
  · rw [heq]
    exact h'.world
  · rw [heq]
    exact h'.failure
  · rw [hasked, preorders_append, List.map_append]
    exact hdrawn.append_traded h'.traded
  · exact h'.keyed
  · rw [List.length_append, List.length_append]
    exact Nat.add_le_add h.length h'.length
  · intro hn
    rw [hasked, preorders_append, List.map_append, h'.ids hn]
  · intro hn
    rw [heq, preorders_append, leafStates_append, leafStates_append, h.states hf, h'.states hn]

private theorem settled_copies {ns : List (Node σ)}
    (ih : ∀ n ∈ ns, ∀ {p : Pool σ}, p.Keyed → ∀ w,
      Settled B owner [n] p w (.ofCopy (n.copy B owner p w)))
    {p : Pool σ} (hp : p.Keyed) (w : ω) : Settled B owner ns p w (copies B owner ns p w) := by
  induction ns generalizing p w with
  | nil => exact settled_nil hp w
  | cons n rest rest_ih =>
    have hn := ih n (by simp) hp w
    simp only [copies]
    generalize n.copy B owner p w = x at hn ⊢
    obtain ⟨r, q, v⟩ := x
    cases r with
    | error e => exact hn.append_of_failure (by simp [Copies.ofCopy]) rest
    | ok m => exact hn.append rfl (rest_ih (fun k hk ↦ ih k (by simp [hk])) hn.keyed v)

/-- A node that was bound is followed by what is below it. -/
theorem settled_adopt {model n m : Node σ} {q : Pool σ} {w' : ω}
    (ha : model.awake B owner w = (.ok m, w')) (hd : p.Drawn q [model.id])
    (hid : n.id = model.id) (hs : leafStates [n] = leafStates [m]) (hh : n.Holds c.children)
    (h : Settled B owner model.children q w' c) :
    Settled B owner [model] p w (.ofCopy (n.adopt c)) := by
  have heq : bindEach B owner (preorders [model]) w =
      let b := bindEach B owner (preorders model.children) w'
      { b with bound := m :: b.bound } := by
    rw [preorders_singleton, preorder_eq, bindEach, ha]
  have hasked : (bindEach B owner (preorders [model]) w).asked =
      [model.id] ++ (bindEach B owner (preorders model.children) w').asked := by
    rw [heq]
    exact congrArg (· :: _) (congrArg Tag.id (tag_awake ha))
  have hids : (n.withChildren c.children).ids =
      [model.id] ++ (preorders c.children).map Node.id := by
    rw [ids_withChildren hh, hid]
    rfl
  have htraded := hd.append_traded h.traded
  rw [← hasked, ← hids] at htraded
  unfold adopt
  cases hf : c.failure with
  | none =>
    constructor
    · rw [heq]
      exact h.world
    · rw [heq]
      exact hf.symm.trans h.failure
    · exact preorders_singleton (n.withChildren c.children) ▸ htraded
    · exact h.keyed
    · exact Nat.le_refl 1
    · intro _
      rw [hasked, ← h.ids hf, ← hids]
      exact congrArg _ (preorders_singleton _)
    · intro _
      rw [heq, show preorders (Copies.ofCopy (Except.ok (n.withChildren c.children), c.pool,
        c.world)).children = _ from preorders_singleton _]
      show (n.withChildren c.children).states = _
      rw [states_withChildren hh, h.states hf, hs, ← leafStates_append]
      rfl
  | some e =>
    constructor
    · rw [heq]
      exact h.world
    · rw [heq]
      exact hf.symm.trans h.failure
    · exact htraded.giveBack (c.pool.refilled_release _)
    · exact h.keyed.release _
    · exact Nat.zero_le _
    · rintro ⟨⟩
    · rintro ⟨⟩

private theorem settled_copyWith {model : Node σ} {copyChildren : Pool σ → ω → Copies σ ω}
    (hc : ∀ {p : Pool σ}, p.Keyed → ∀ w,
      Settled B owner model.children p w (copyChildren p w)) {p : Pool σ} (hp : p.Keyed) (w : ω) :
    Settled B owner [model] p w (.ofCopy (model.copyWith B owner copyChildren p w)) := by
  have hfetched : Fetched B owner model p w (model.acquireAwake B owner p w) :=
    fetched_acquireAwake hp model w
  unfold copyWith
  generalize model.acquireAwake B owner p w = x at hfetched ⊢
  cases hfetched with
  | @refused e q w' ha ht hk =>
    have heq : bindEach B owner (preorders [model]) w = ⟨[], some (model, e), w'⟩ := by
      rw [preorders_singleton, preorder_eq, bindEach, ha]
    refine ⟨?_, ?_, ?_, hk, Nat.zero_le _, (by rintro ⟨⟩), (by rintro ⟨⟩)⟩
    · rw [heq]
      rfl
    · rw [heq]
      rfl
    · rw [heq]
      exact ht
  | @bound n m q w' ha hd hk hid hs hh =>
    have h := hc hk w'
    exact settled_adopt ha hd hid hs (hh _ h.length) h

/-- Copying a subtree from a pool with all nodes in their places comes to binding its nodes in
pre-order. -/
theorem settled_copy {p : Pool σ} (hp : p.Keyed) (n : Node σ) (w : ω) :
    Settled B owner [n] p w (.ofCopy (n.copy B owner p w)) := by
  induction n using child_induction generalizing p w with
  | step n ih =>
    rw [copy_eq]
    exact settled_copyWith (fun hp w ↦ settled_copies (fun c hc _ hp w ↦ ih c hc hp w) hp w) hp w

/-- If a node refused, the copy fails with its error, and everything comes back. -/
theorem copy_of_refused {n m : Node σ} {bound : List (Node σ)} {e : AwakeError} {w' : ω}
    (hp : p.Keyed) (hb : bindEach B owner n.preorder w = ⟨bound, some (m, e), w'⟩) :
    ∃ q, n.copy B owner p w = (.error (.awake m.id m.name e), q, w') ∧
      p.Traded q (bound.map Node.id ++ [m.id]) [] := by
  have h : Settled B owner [n] p w (.ofCopy (n.copy B owner p w)) := settled_copy hp n w
  have hworld := h.world
  have hfailure := h.failure
  have htraded := h.traded
  rw [preorders_singleton, hb] at hworld hfailure htraded
  generalize n.copy B owner p w = x at hworld hfailure htraded ⊢
  obtain ⟨r, q, v⟩ := x
  cases r with
  | ok c => cases hfailure
  | error a =>
    cases hfailure
    exact ⟨q, congrArg (fun v ↦ (_, q, v)) hworld, htraded⟩

/-- If no node refused, there is a copy, and one node was drawn for each. -/
theorem copy_of_bound {n : Node σ} {bound : List (Node σ)} {w' : ω} (hp : p.Keyed)
    (hb : bindEach B owner n.preorder w = ⟨bound, none, w'⟩) :
    ∃ c q, n.copy B owner p w = (.ok c, q, w') ∧ p.Drawn q n.ids ∧ c.ids = n.ids ∧
      c.states = leafStates bound := by
  have h : Settled B owner [n] p w (.ofCopy (n.copy B owner p w)) := settled_copy hp n w
  have hasked : (bindEach B owner n.preorder w).asked = n.ids := by
    rw [Bindings.asked, ids_bindEach (by rw [hb]), hb]
    exact List.append_nil _
  have hworld := h.world
  have hfailure := h.failure
  have htraded := h.traded
  have hids := h.ids
  have hstates := h.states
  rw [preorders_singleton] at hworld hfailure htraded hids hstates
  rw [hasked] at htraded hids
  rw [hb] at hworld hfailure hstates
  generalize n.copy B owner p w = x at hworld hfailure htraded hids hstates ⊢
  obtain ⟨r, q, v⟩ := x
  cases r with
  | error a => cases hfailure
  | ok c =>
    have hc : c.ids = n.ids := by
      rw [← hids rfl]
      exact congrArg _ (preorders_singleton c).symm
    refine ⟨c, q, congrArg (fun v ↦ (_, q, v)) hworld, ?_, hc, ?_⟩
    · have ht : p.Traded q n.ids ((preorders [c]).map Node.id) := htraded
      rw [preorders_singleton, show c.preorder.map Node.id = n.ids from hc] at ht
      exact ht.drawn
    · rw [← hstates rfl]
      exact congrArg leafStates (preorders_singleton c).symm

end Node

/-! ### Instances -/

namespace Tree

variable {B : Behavior ο σ ω} {owner : ο} {t : Tree ο σ} {host : Host σ ω}
  {bound : List (Node σ)} {w : ω}

/-- A prototype is instantiated by copying its root. -/
theorem instantiate_of_copy {r : Except CloneError (Node σ)} {q : Pool σ}
    (hi : t.isInstance = false) (hc : t.root.copy B owner host.pool host.world = (r, q, w)) :
    t.instantiate B owner host =
      (r.map fun root ↦ ⟨root, t.registry, some owner, true, none⟩,
        { host with pool := q, world := w }) := by
  simp only [instantiate, hi, Bool.false_eq_true, if_false, hc]

/-- If a node refused, instantiating fails with its error, and everything comes back. -/
theorem instantiate_of_refused {n : Node σ} {e : AwakeError} (hi : t.isInstance = false)
    (hp : host.pool.Keyed)
    (hb : Node.bindEach B owner t.root.preorder host.world = ⟨bound, some (n, e), w⟩) :
    ∃ q, t.instantiate B owner host =
        (.error (.awake n.id n.name e), { host with pool := q, world := w }) ∧
      host.pool.Traded q (bound.map Node.id ++ [n.id]) [] := by
  obtain ⟨q, hcopy, ht⟩ := Node.copy_of_refused hp hb
  exact ⟨q, instantiate_of_copy hi hcopy, ht⟩

/-- If no node refused, there is an instance, and one node was drawn for each. -/
theorem instantiate_of_bound (hi : t.isInstance = false) (hp : host.pool.Keyed)
    (hb : Node.bindEach B owner t.root.preorder host.world = ⟨bound, none, w⟩) :
    ∃ root q, t.instantiate B owner host =
        (.ok ⟨root, t.registry, some owner, true, none⟩, { host with pool := q, world := w }) ∧
      host.pool.Drawn q t.root.ids ∧ root.ids = t.root.ids ∧
      root.states = Node.leafStates bound := by
  obtain ⟨root, q, hcopy, hd, hids, hstates⟩ := Node.copy_of_bound hp hb
  exact ⟨root, q, instantiate_of_copy hi hcopy, hd, hids, hstates⟩

/-- What comes of instantiating: the tree is no prototype, a node refused, or there is an
instance. -/
inductive Attempt (B : Behavior ο σ ω) (owner : ο) (t : Tree ο σ) (host : Host σ ω) :
    Except CloneError (Tree ο σ) × Host σ ω → Prop where
  | copied : Attempt B owner t host (.error .notAPrototype, host)
  | refused {bound : List (Node σ)} {n : Node σ} {e : AwakeError} {w : ω} {q : Pool σ}
      (hb : Node.bindEach B owner t.root.preorder host.world = ⟨bound, some (n, e), w⟩)
      (ht : host.pool.Traded q (bound.map Node.id ++ [n.id]) []) :
      Attempt B owner t host
        (.error (.awake n.id n.name e), { host with pool := q, world := w })
  | made {bound : List (Node σ)} {w : ω} {q : Pool σ} {x : Tree ο σ}
      (hb : Node.bindEach B owner t.root.preorder host.world = ⟨bound, none, w⟩)
      (hd : host.pool.Drawn q x.root.ids) (hs : x.root.states = Node.leafStates bound) :
      Attempt B owner t host (.ok x, { host with pool := q, world := w })

/-- Instantiating comes out in one of the ways of an attempt. -/
theorem attempt_instantiate (B : Behavior ο σ ω) (t : Tree ο σ) (owner : ο)
    (hp : host.pool.Keyed) :
    Attempt B owner t host (t.instantiate B owner host) := by
  cases hi : t.isInstance with
  | true =>
    simp only [instantiate, hi, if_true]
    exact .copied
  | false =>
    cases hb : Node.bindEach B owner t.root.preorder host.world with
    | mk bound refused w =>
      cases refused with
      | none =>
        obtain ⟨root, q, heq, hd, hids, hs⟩ := instantiate_of_bound hi hp hb
        rw [heq]
        rw [← hids] at hd
        exact .made hb hd hs
      | some r =>
        obtain ⟨q, heq, ht⟩ := instantiate_of_refused hi hp hb
        rw [heq]
        exact .refused hb ht

/-- Whatever comes of instantiating, it is a trade with the pool: of an instance all nodes are
kept, and of a failed attempt none. -/
theorem traded_instantiate (B : Behavior ο σ ω) (t : Tree ο σ) (owner : ο)
    (hp : host.pool.Keyed) :
    let r := t.instantiate B owner host
    ∃ asked, host.pool.Traded r.2.pool asked ((r.1.toOption.map fun x ↦ x.root.ids).getD []) := by
  have h := t.attempt_instantiate B owner hp
  generalize t.instantiate B owner host = r at h ⊢
  cases h with
  | copied => exact ⟨[], (Pool.Drawn.nil host.pool).traded⟩
  | refused _ ht => exact ⟨_, ht⟩
  | made _ hd => exact ⟨_, hd.traded⟩

end Tree

end BehaviorTree
