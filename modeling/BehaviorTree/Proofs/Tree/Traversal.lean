import BehaviorTree.Proofs.Node.Leaves
import BehaviorTree.Proofs.Tree.Binding
import Mathlib.Data.List.Perm.Basic

/-!
# Copying without recursion

An engine that must not recurse makes a copy with a stack of frames: one for each node that is
being copied, with the number of its children that were visited. A child is pushed when it was
taken from the pool and bound, and attached to its parent when it is popped. If a node cannot be
had, all nodes on the stack go back to the pool, the outermost first. The stack never runs empty,
and where identifiers are different, what comes out is the recursive `copy` (`assemble_spec`).
-/

namespace BehaviorTree

variable {ο σ ω : Type}

/-- A node that is being copied, what there is of its copy, and how many of its children were
visited. -/
structure Frame (σ : Type) where
  model : Node σ
  node : Node σ
  visited : Nat

namespace Frame

/-- The frame of a node of which nothing but its shell was copied. -/
def enter (model node : Node σ) : Frame σ := ⟨model, node, 0⟩

/-- A bound on the turns that the copying of the node still takes. -/
def remaining (f : Frame σ) : Nat := 1 + 2 * Node.sizes (f.model.children.drop f.visited)

end Frame

namespace Node

/-- Attaches the copy of a child behind the others; a decorator has place for one. -/
def attach (n child : Node σ) : Node σ :=
  match n with
  | leaf tag life state => leaf tag life state
  | composite tag life kind resume children =>
    composite tag life kind resume (children ++ [child])
  | decorator tag life kind memory _ => decorator tag life kind memory (some child)

private theorem sizes_drop {ns : List (Node σ)} {index : Nat} {n : Node σ}
    (h : ns[index]? = some n) : sizes (ns.drop index) = n.size + sizes (ns.drop (index + 1)) := by
  obtain ⟨hlt, rfl⟩ := List.getElem?_eq_some_iff.mp h
  rw [List.drop_eq_getElem_cons hlt, sizes]

end Node

/-- Takes back what there is of unfinished copies, given from the innermost to the outermost: the
outermost comes first. -/
def Pool.rollBack (p : Pool σ) (ns : List (Node σ)) : Pool σ := ns.foldr (fun n p ↦ p.release n) p

/-- Goes on with a copy, the innermost frame first, until it is made or has failed. There is no
result if the stack runs empty. -/
def traverse (B : Behavior ο σ ω) (owner : ο) :
    List (Frame σ) → Pool σ → ω → Option (Except CloneError (Node σ) × Pool σ × ω)
  | [], _, _ => none
  | f :: rest, p, w =>
    match _hf : f.model.children[f.visited]? with
    | some model =>
      match model.acquireAwake B owner p w with
      | (.ok n, p, w) =>
        traverse B owner (.enter model n :: { f with visited := f.visited + 1 } :: rest) p w
      | (.error e, p, w) => some (.error e, p.rollBack ((f :: rest).map Frame.node), w)
    | none =>
      match rest with
      | [] => some (.ok f.node, p, w)
      | parent :: rest =>
        traverse B owner ({ parent with node := parent.node.attach f.node } :: rest) p w
termination_by frames => (frames.map Frame.remaining).sum
decreasing_by
  · have hsize := Node.sizes_drop _hf
    have hmodel := model.size_eq
    simp only [List.map_cons, List.sum_cons, Frame.remaining, Frame.enter, List.drop_zero]
    omega
  · simp only [List.map_cons, List.sum_cons, Frame.remaining]
    omega

/-- Makes a copy of a subtree with a stack of frames. -/
def Node.assemble (B : Behavior ο σ ω) (owner : ο) (model : Node σ) (p : Pool σ) (w : ω) :
    Option (Except CloneError (Node σ) × Pool σ × ω) :=
  match model.acquireAwake B owner p w with
  | (.error e, p, w) => some (.error e, p, w)
  | (.ok n, p, w) => traverse B owner [.enter model n] p w

variable {B : Behavior ο σ ω} {owner : ο} {f parent : Frame σ} {rest : List (Frame σ)}
  {n m model : Node σ} {p q : Pool σ} {w w' : ω}

/-! ### The turns of the loop -/

private theorem traverse_cons (B : Behavior ο σ ω) (owner : ο) (f : Frame σ) (rest : List (Frame σ))
    (p : Pool σ) (w : ω) :
    traverse B owner (f :: rest) p w =
      match f.model.children[f.visited]? with
      | some model =>
        match model.acquireAwake B owner p w with
        | (.ok n, p, w) =>
          traverse B owner (.enter model n :: { f with visited := f.visited + 1 } :: rest) p w
        | (.error e, p, w) => some (.error e, p.rollBack ((f :: rest).map Frame.node), w)
      | none =>
        match rest with
        | [] => some (.ok f.node, p, w)
        | parent :: rest =>
          traverse B owner ({ parent with node := parent.node.attach f.node } :: rest) p w := by
  rw [traverse.eq_def]
  dsimp only
  split
  · next hm => simp only [hm]
  · next hm => simp only [hm]

private theorem traverse_push (hm : f.model.children[f.visited]? = some model)
    (ha : model.acquireAwake B owner p w = (.ok n, q, w')) :
    traverse B owner (f :: rest) p w =
      traverse B owner (.enter model n :: { f with visited := f.visited + 1 } :: rest) q w' := by
  simp only [traverse_cons B owner f, hm, ha]

private theorem traverse_fail {e : CloneError} (hm : f.model.children[f.visited]? = some model)
    (ha : model.acquireAwake B owner p w = (.error e, q, w')) :
    traverse B owner (f :: rest) p w =
      some (.error e, q.rollBack ((f :: rest).map Frame.node), w') := by
  simp only [traverse_cons B owner f, hm, ha]

private theorem traverse_pop (hm : f.model.children[f.visited]? = none) :
    traverse B owner (f :: parent :: rest) p w =
      traverse B owner ({ parent with node := parent.node.attach f.node } :: rest) p w := by
  simp only [traverse_cons B owner f, hm]

private theorem traverse_done (hm : f.model.children[f.visited]? = none) :
    traverse B owner [f] p w = some (.ok f.node, p, w) := by
  simp only [traverse_cons B owner f, hm]

/-! ### Shells -/

namespace Node

private theorem children_shell (n : Node σ) : n.shell.children = [] := by
  cases n <;> rfl

/-- A shell that was bound has no children, but place for as many as its model has. -/
theorem shell_acquireAwake (ha : model.acquireAwake B owner p w = (.ok n, q, w')) :
    n.children = [] ∧ n.id = model.id ∧
      ∀ cs : List (Node σ), cs.length ≤ model.children.length → n.Holds cs := by
  have hbound : Bound (fun _ : σ ↦ ()) (fun u ↦ u) model p (model.acquireAwake B owner p w) :=
    bound_acquireAwake (fun _ _ _ _ ↦ rfl) model p w
  have hframe := hbound.frame n (by rw [ha])
  rw [map_self] at hframe
  refine ⟨?_, ?_, fun cs ↦ holds_of_frame hframe⟩
  · have hchildren := congrArg children hframe
    rw [frame, frame, children_recast, children_recast, children_shell] at hchildren
    exact List.map_eq_nil_iff.mp hchildren
  · have htag := congrArg tag hframe
    rw [frame, frame, tag_recast, tag_recast, tag_shell] at htag
    exact congrArg Tag.id htag

/-- Attaching nodes one after the other to a node without children puts them below it. -/
theorem foldl_attach {cs : List (Node σ)} (hn : n.children = []) (hh : n.Holds cs) :
    cs.foldl attach n = n.withChildren cs := by
  cases n with
  | leaf =>
    obtain rfl : cs = [] := hh.symm
    rfl
  | composite tag life kind resume children =>
    obtain rfl : children = [] := hn
    have hfold (ds : List (Node σ)) : cs.foldl attach (composite tag life kind resume ds) =
        composite tag life kind resume (ds ++ cs) := by
      clear hh
      induction cs generalizing ds with
      | nil => simp
      | cons c rest ih => simpa [attach] using ih (ds ++ [c])
    exact hfold []
  | decorator tag life kind memory child =>
    cases child with
    | some child => cases hn
    | none =>
      obtain rfl | ⟨c, rfl⟩ : cs = [] ∨ ∃ c, cs = [c] := by
        have hcs : cs.head?.toList = cs := hh
        rw [← hcs]
        cases cs.head? with
        | none => exact .inl rfl
        | some c => exact .inr ⟨c, rfl⟩
      · rfl
      · rfl

/-- The identifiers of a shell with copies below it are some of those of the model, in order, if
those of the copies and of others are some of those below the model. -/
theorem ids_withChildren_sublist (hid : n.id = model.id) {cs ds : List (Node σ)} (hh : n.Holds cs)
    (h : ((cs ++ ds).flatMap ids).Sublist (model.children.flatMap ids)) :
    ((n.withChildren cs :: ds).flatMap ids).Sublist model.ids := by
  have hroot : (n.withChildren cs).id = model.id := by
    rw [← hid]
    exact congrArg Tag.id (n.tag_withChildren cs)
  have hchildren : (n.withChildren cs).children = cs := hh
  rw [List.flatMap_cons, ids_eq, ids_eq model, hchildren, hroot, List.cons_append,
    ← List.flatMap_append]
  exact h.cons_cons _

private theorem length_copies_le (B : Behavior ο σ ω) (owner : ο) (ns : List (Node σ)) (p : Pool σ)
    (w : ω) : (copies B owner ns p w).children.length ≤ ns.length := by
  induction ns generalizing p w with
  | nil => exact Nat.le_refl 0
  | cons n rest ih =>
    simp only [copies]
    obtain ⟨r, q, v⟩ := n.copy B owner p w
    cases r with
    | error e => exact Nat.zero_le _
    | ok c => exact Nat.succ_le_succ (ih q v)

end Node

/-! ### Copies of children -/

namespace Node

variable {cs : List (Node σ)} {e : CloneError}

private theorem copies_cons_of_refused (ha : model.acquireAwake B owner p w = (.error e, q, w')) :
    copies B owner (model :: cs) p w = ⟨[], some e, q, w'⟩ := by
  simp only [copies, copy_eq, copyWith, ha]

/-- A copy that failed further inside goes back as far as it was made. -/
theorem copies_cons_of_failed (ha : model.acquireAwake B owner p w = (.ok n, q, w'))
    (hf : (copies B owner model.children q w').failure = some e) :
    let k := copies B owner model.children q w'
    copies B owner (model :: cs) p w =
      ⟨[], some e, k.pool.release (n.withChildren k.children), k.world⟩ := by
  simp only [copies, copy_eq, copyWith, ha, adopt, hf]

/-- A copy that was made comes before the others. -/
theorem copies_cons_of_made (ha : model.acquireAwake B owner p w = (.ok n, q, w'))
    (hf : (copies B owner model.children q w').failure = none) :
    let k := copies B owner model.children q w'
    let r := copies B owner cs k.pool k.world
    copies B owner (model :: cs) p w =
      { r with children := n.withChildren k.children :: r.children } := by
  simp only [copies, copy_eq, copyWith, ha, adopt, hf]

end Node

/-- How copying the children of the innermost frame, in the way of `copies`, tells what comes of
going on with the frame. -/
inductive Traversed (B : Behavior ο σ ω) (owner : ο) (f : Frame σ) (rest : List (Frame σ))
    (ids : List NodeId) (c : Copies σ ω) :
    Option (Except CloneError (Node σ) × Pool σ × ω) → Prop where
  /-- The copies of all children were attached. -/
  | made (hf : c.failure = none) (hids : (c.children.flatMap Node.ids).Sublist ids) :
    Traversed B owner f rest ids c (traverse B owner
      (⟨f.model, c.children.foldl Node.attach f.node, f.model.children.length⟩ :: rest)
      c.pool c.world)
  /-- There were unfinished copies further inside. They are given back last of all, where the
  recursion has given them back first. -/
  | failed {e : CloneError} (p : Pool σ) (inner : List (Node σ)) (hf : c.failure = some e)
    (hp : c.pool = inner.foldl Pool.release p)
    (hids : ((c.children ++ inner.reverse).flatMap Node.ids).Sublist ids) :
    Traversed B owner f rest ids c
      (some (.error e, p.rollBack
        (inner ++ c.children.foldl Node.attach f.node :: rest.map Frame.node), c.world))

/-- What comes of visiting a child whose copy was made, and then the others. -/
theorem Traversed.attach {c : Copies σ ω} {ids ids' : List NodeId} {n : Node σ}
    {r : Option (Except CloneError (Node σ) × Pool σ × ω)}
    (h : Traversed B owner { f with visited := f.visited + 1, node := f.node.attach n } rest ids' c
      r)
    (hn : n.ids.Sublist ids) :
    Traversed B owner f rest (ids ++ ids') { c with children := n :: c.children } r := by
  cases h with
  | made hf hids => exact .made hf (hn.append hids)
  | failed p inner hf hp hids => exact .failed p inner hf hp (hn.append hids)

private theorem traversed_children {cs : List (Node σ)}
    (ih : ∀ c ∈ cs, ∀ n rest p w, Traversed B owner (.enter c n) rest (c.children.flatMap Node.ids)
      (Node.copies B owner c.children p w) (traverse B owner (.enter c n :: rest) p w))
    (done : List (Node σ)) (hf : f.model.children = done ++ cs) (hv : f.visited = done.length)
    (p : Pool σ) (w : ω) :
    Traversed B owner f rest (cs.flatMap Node.ids) (Node.copies B owner cs p w)
      (traverse B owner (f :: rest) p w) := by
  induction cs generalizing f done p w with
  | nil =>
    have hlength : f.model.children.length = f.visited := by rw [hf, hv, List.append_nil]
    have hmade : Traversed B owner f rest [] (Node.copies B owner [] p w) _ :=
      .made rfl (List.Sublist.refl _)
    rw [hlength] at hmade
    exact hmade
  | cons c cs rest_ih =>
    have hc : f.model.children[f.visited]? = some c := by simp [hf, hv]
    rw [List.flatMap_cons]
    cases ha : c.acquireAwake B owner p w with
    | mk r a =>
      obtain ⟨q, v⟩ := a
      cases r with
      | error e =>
        rw [traverse_fail hc ha, Node.copies_cons_of_refused ha]
        exact .failed q [] rfl rfl (List.nil_sublist _)
      | ok n =>
        obtain ⟨hn, hid, hholds⟩ := Node.shell_acquireAwake ha
        have hh := hholds _ (Node.length_copies_le B owner c.children q v)
        have hchild := ih c List.mem_cons_self n ({ f with visited := f.visited + 1 } :: rest) q v
        rw [traverse_push hc ha]
        generalize traverse B owner (.enter c n :: _) q v = r at hchild ⊢
        cases hchild with
        | made hfailure hids =>
          have hsub : ([n.withChildren _].flatMap Node.ids).Sublist c.ids :=
            Node.ids_withChildren_sublist hid hh (by rwa [List.append_nil])
          rw [List.flatMap_singleton] at hsub
          rw [traverse_pop (by simp), Node.copies_cons_of_made ha hfailure, Frame.enter,
            Node.foldl_attach hn hh]
          refine Traversed.attach ?_ hsub
          exact rest_ih (fun d hd ↦ ih d (List.mem_cons_of_mem _ hd)) (done ++ [c])
            (by simp [hf]) (by simp [hv]) _ _
        | @failed e p' inner hfailure hpool hids =>
          have hsub := Node.ids_withChildren_sublist hid hh hids
          rw [← List.reverse_concat] at hsub
          rw [Node.copies_cons_of_failed ha hfailure, List.map_cons, Frame.enter,
            Node.foldl_attach hn hh, ← List.singleton_append, ← List.append_assoc]
          refine .failed p' _ rfl ?_ (hsub.trans (List.sublist_append_left _ _))
          rw [hpool, List.foldl_concat]

/-- Whatever the shape of a node, going on with a frame that was entered tells how its children are
copied. -/
theorem traversed (model n : Node σ) (rest : List (Frame σ)) (p : Pool σ) (w : ω) :
    Traversed B owner (.enter model n) rest (model.children.flatMap Node.ids)
      (Node.copies B owner model.children p w) (traverse B owner (.enter model n :: rest) p w) := by
  induction model using Node.child_induction generalizing n rest p w with
  | step model ih => exact traversed_children ih [] rfl rfl p w

/-! ### Copies -/

/-- Subtrees with different identifiers may come back in any order. -/
theorem Pool.rollBack_eq_foldl {ns : List (Node σ)} (hn : (ns.flatMap Node.ids).Nodup)
    (p : Pool σ) : p.rollBack ns = ns.foldl release p := by
  have hfold (ns : List (Node σ)) (p : Pool σ) :
      ns.foldl release p = (ns.flatMap returnOrder).foldl put p := by
    induction ns generalizing p with
    | nil => rfl
    | cons n rest ih => rw [List.foldl_cons, ih, List.flatMap_cons, List.foldl_append, release]
  have hids : ((ns.flatMap returnOrder).map Node.id).Perm (ns.flatMap Node.ids) := by
    rw [List.map_flatMap]
    exact List.Perm.flatMap_left ns fun n _ ↦ (returnOrder_perm n).map Node.id
  have hreverse : p.rollBack ns = ns.reverse.foldl release p := List.foldl_reverse.symm
  rw [hreverse, hfold, hfold]
  have hback := foldl_put_of_perm ((List.reverse_perm ns).symm.flatMap_right returnOrder)
    (hids.nodup_iff.mpr hn) p
  exact hback.symm

/-- Whatever the shape of a node, the loop comes to an end, with the result and the world of the
recursive copy. The pool is the same too, if there is a copy, or if the identifiers of the nodes are
different. -/
theorem Node.assemble_spec (B : Behavior ο σ ω) (owner : ο) (n : Node σ) (p : Pool σ) (w : ω) :
    let r := n.copy B owner p w
    ∃ q, n.assemble B owner p w = some (r.1, q, r.2.2) ∧
      ((∃ c, r.1 = .ok c) ∨ n.ids.Nodup → q = r.2.1) := by
  intro r
  have hcopy : r = n.copyWith B owner (copies B owner n.children) p w := copy_eq B owner n p w
  rw [copyWith] at hcopy
  rw [assemble, hcopy]
  cases ha : n.acquireAwake B owner p w with
  | mk x a =>
    obtain ⟨q, v⟩ := a
    cases x with
    | error e => exact ⟨q, rfl, fun _ ↦ rfl⟩
    | ok m =>
      obtain ⟨hm, hid, hholds⟩ := shell_acquireAwake ha
      have hh := hholds _ (length_copies_le B owner n.children q v)
      have htraversed : Traversed B owner (.enter n m) [] _ _ _ := traversed n m [] q v
      simp only
      generalize copies B owner n.children q v = k at htraversed hh ⊢
      generalize traverse B owner [.enter n m] q v = result at htraversed ⊢
      rw [adopt]
      cases htraversed with
      | made hfailure =>
        rw [traverse_done (by simp), Frame.enter, foldl_attach hm hh, hfailure]
        exact ⟨k.pool, rfl, fun _ ↦ rfl⟩
      | failed p' inner hfailure hpool hsub =>
        rw [Frame.enter, foldl_attach hm hh, hfailure]
        refine ⟨_, rfl, fun h ↦ ?_⟩
        have hids : n.ids.Nodup := by
          rcases h with ⟨c, hc⟩ | hids
          · cases hc
          · exact hids
        have hnodup : ((inner ++ [m.withChildren k.children]).flatMap ids).Nodup := by
          have hperm := ((inner ++ [m.withChildren k.children]).reverse_perm).flatMap_right ids
          rw [← hperm.nodup_iff, List.reverse_concat]
          exact (ids_withChildren_sublist hid hh hsub).nodup hids
        rw [List.map_nil, Pool.rollBack_eq_foldl hnodup, List.foldl_concat, ← hpool]

end BehaviorTree
