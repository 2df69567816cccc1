import BehaviorTree.Proofs.Node.Preserved
import BehaviorTree.Proofs.Tree.Calls

/-!
# Prototypes

A prototype is checked for repeated identifiers when it is made. Whatever is done with it later, its
identifiers stay different and it does not become an instance (`IsPrototype.kept`).
-/

namespace BehaviorTree

variable {ο σ ω : Type}

/-- The search for a repeated identifier comes to an end if there is none. -/
theorem nodup_of_firstRepeated? {seen ids : List NodeId} (h : firstRepeated? seen ids = none) :
    ids.Nodup ∧ ∀ id ∈ ids, id ∉ seen := by
  induction ids generalizing seen with
  | nil => exact ⟨List.nodup_nil, fun id hid ↦ absurd hid List.not_mem_nil⟩
  | cons id rest ih =>
    rw [firstRepeated?] at h
    split at h
    · cases h
    · next hid =>
      obtain ⟨hn, hrest⟩ := ih h
      constructor
      · refine List.nodup_cons.mpr ⟨fun hmem ↦ ?_, hn⟩
        exact hrest id hmem List.mem_cons_self
      · intro other hother
        rcases List.mem_cons.mp hother with rfl | hother
        · exact hid
        · exact fun hseen ↦ hrest other hother (List.mem_cons_of_mem _ hseen)

/-- The search stops at an identifier that was there before, when all before it were new. -/
theorem firstRepeated?_eq_some_iff {seen ids : List NodeId} {id : NodeId} :
    firstRepeated? seen ids = some id ↔
      ∃ before after, ids = before ++ id :: after ∧ before.Nodup ∧ (∀ x ∈ before, x ∉ seen) ∧
        (id ∈ seen ∨ id ∈ before) := by
  induction ids generalizing seen with
  | nil => simp [firstRepeated?]
  | cons x rest ih =>
    rw [firstRepeated?]
    split
    · next hx =>
      constructor
      · intro h
        obtain rfl := Option.some.inj h
        exact ⟨[], rest, rfl, List.nodup_nil, fun y hy ↦ absurd hy List.not_mem_nil, .inl hx⟩
      · rintro ⟨before, after, heq, -, hnew, -⟩
        cases before with
        | nil => rw [(List.cons.inj heq).1]
        | cons y before =>
          obtain ⟨rfl, -⟩ := List.cons.inj heq
          exact absurd hx (hnew x List.mem_cons_self)
    · next hx =>
      have hmem (before : List NodeId) :
          id ∈ x :: seen ∨ id ∈ before ↔ id ∈ seen ∨ id ∈ x :: before := by
        simp only [List.mem_cons, or_assoc, or_left_comm]
      rw [ih]
      constructor
      · rintro ⟨before, after, rfl, hn, hnew, hid⟩
        have hfresh : x ∉ before := fun hmem ↦ hnew x hmem List.mem_cons_self
        refine ⟨x :: before, after, rfl, List.nodup_cons.mpr ⟨hfresh, hn⟩, ?_, (hmem _).mp hid⟩
        exact List.forall_mem_cons.mpr
          ⟨hx, fun y hy hseen ↦ hnew y hy (List.mem_cons_of_mem _ hseen)⟩
      · rintro ⟨before, after, heq, hn, hnew, hid⟩
        cases before with
        | nil =>
          obtain ⟨rfl, -⟩ := List.cons.inj heq
          exact absurd (hid.resolve_right List.not_mem_nil) hx
        | cons y before =>
          obtain ⟨rfl, rfl⟩ := List.cons.inj heq
          obtain ⟨hfresh, hn⟩ := List.nodup_cons.mp hn
          refine ⟨before, after, rfl, hn, fun y hy hseen ↦ ?_, (hmem _).mpr hid⟩
          rcases List.mem_cons.mp hseen with rfl | hseen
          · exact hfresh hy
          · exact hnew y (List.mem_cons_of_mem _ hy) hseen

/-- It comes to an end just when there is none. -/
theorem firstRepeated?_nil_eq_none_iff {ids : List NodeId} :
    firstRepeated? [] ids = none ↔ ids.Nodup := by
  refine ⟨fun h ↦ (nodup_of_firstRepeated? h).1, fun hn ↦ ?_⟩
  cases h : firstRepeated? [] ids with
  | none => rfl
  | some id =>
    obtain ⟨before, after, rfl, -, -, hid⟩ := firstRepeated?_eq_some_iff.mp h
    have hmem : id ∈ before := hid.resolve_left List.not_mem_nil
    exact absurd rfl ((List.nodup_append.mp hn).2.2 id hmem id List.mem_cons_self)

namespace Tree

variable {B : Behavior ο σ ω}

/-- Whether a tree was made as a prototype; it may have been ticked and stopped since. -/
def IsPrototype (B : Behavior ο σ ω) (t : Tree ο σ) : Prop :=
  ∃ root made calls, Tree.prototype root = .ok made ∧ t = (made.serveAll B calls).tree

/-- Serving changes neither the author's tree nor whether it is an instance. -/
theorem serve_kept (t : Tree ο σ) (request : Request) (env : Env ω) :
    let r := t.serve B request env
    r.tree.root.ids = t.root.ids ∧ r.tree.isInstance = t.isInstance := by
  obtain ⟨board, -, h⟩ := t.evolves_serve B request env
  refine ⟨h.ids, ?_⟩
  cases request <;> rfl

/-- Calls keep the identifiers of the nodes, and an instance stays one. -/
theorem serveAll_kept (calls : List (Call ω)) (t : Tree ο σ) :
    let r := t.serveAll B calls
    r.tree.root.ids = t.root.ids ∧ r.tree.isInstance = t.isInstance := by
  induction calls generalizing t with
  | nil => exact ⟨rfl, rfl⟩
  | cons call rest ih =>
    have hs := t.serve_kept (B := B) call.request call.env
    have hr := ih (t.serve B call.request call.env).tree
    exact ⟨hr.1.trans hs.1, hr.2.trans hs.2⟩

/-- A prototype has its root as it was given, and the identifiers below it, which are different. -/
theorem eq_of_prototype {root : Node σ} {t : Tree ο σ} (h : Tree.prototype root = .ok t) :
    t = ⟨root, root.ids, none, false, none⟩ ∧ root.ids.Nodup := by
  rw [Tree.prototype, Walk.toList_start] at h
  cases hf : firstRepeated? [] (root.preorder.map Node.id) with
  | some id =>
    rw [hf] at h
    cases h
  | none =>
    rw [hf] at h
    cases h
    exact ⟨rfl, (nodup_of_firstRepeated? hf).1⟩

/-- Different identifiers are all that it takes to be made a prototype. -/
theorem exists_prototype_iff {root : Node σ} :
    (∃ t : Tree ο σ, Tree.prototype root = .ok t) ↔ root.ids.Nodup := by
  refine ⟨fun ⟨t, h⟩ ↦ (eq_of_prototype h).2, fun hn ↦ ?_⟩
  rw [Node.ids, ← firstRepeated?_nil_eq_none_iff] at hn
  rw [Tree.prototype, Walk.toList_start, hn]
  exact ⟨_, rfl⟩

/-- A root that is refused has an identifier twice, and the error names the first that occurred
before. -/
theorem prototype_eq_error_iff {root : Node σ} {e : TreeError} :
    (Tree.prototype root : Except TreeError (Tree ο σ)) = .error e ↔
      ∃ before n after, root.preorder = before ++ n :: after ∧ (before.map Node.id).Nodup ∧
        (∃ m ∈ before, m.id = n.id) ∧ e = .duplicateId n.id := by
  have hsplit (id : NodeId) : firstRepeated? [] (root.preorder.map Node.id) = some id ↔
      ∃ before n after, root.preorder = before ++ n :: after ∧ (before.map Node.id).Nodup ∧
        (∃ m ∈ before, m.id = n.id) ∧ id = n.id := by
    simp only [firstRepeated?_eq_some_iff, List.map_eq_append_iff, List.map_eq_cons_iff]
    constructor
    · rintro ⟨_, _, ⟨before, _, hroot, rfl, n, after, rfl, rfl, rfl⟩, hn, -, hid⟩
      exact ⟨before, n, after, hroot, hn,
        List.mem_map.mp (hid.resolve_left List.not_mem_nil), rfl⟩
    · rintro ⟨before, n, after, hroot, hn, hid, rfl⟩
      exact ⟨_, _, ⟨before, _, hroot, rfl, n, after, rfl, rfl, rfl⟩, hn,
        fun _ _ ↦ List.not_mem_nil, .inr (List.mem_map.mpr hid)⟩
  rw [Tree.prototype, Walk.toList_start]
  cases hf : firstRepeated? [] (root.preorder.map Node.id) with
  | none =>
    have hnone (id : NodeId) := (hsplit id).not.mp (by rw [hf]; exact nofun)
    refine ⟨nofun, fun ⟨before, n, after, hroot, hn, hid, _⟩ ↦ ?_⟩
    exact absurd ⟨before, n, after, hroot, hn, hid, rfl⟩ (hnone n.id)
  | some id =>
    obtain ⟨before, n, after, hroot, hn, hid, rfl⟩ := (hsplit id).mp hf
    constructor
    · intro h
      cases h
      exact ⟨before, n, after, hroot, hn, hid, rfl⟩
    · rintro ⟨before', n', after', hroot', hn', hid', rfl⟩
      have hfound := (hsplit n'.id).mpr ⟨before', n', after', hroot', hn', hid', rfl⟩
      rw [hf] at hfound
      rw [Option.some.inj hfound]

/-- A prototype has different identifiers, and is no instance. -/
theorem IsPrototype.kept {t : Tree ο σ} (h : t.IsPrototype B) :
    t.root.ids.Nodup ∧ t.isInstance = false := by
  obtain ⟨root, made, calls, hmade, rfl⟩ := h
  obtain ⟨hids, hinstance⟩ := made.serveAll_kept (B := B) calls
  rw [hids, hinstance]
  obtain ⟨rfl, hn⟩ := eq_of_prototype hmade
  exact ⟨hn, rfl⟩

end Tree

end BehaviorTree
