import BehaviorTree.Proofs.Node.Law
import BehaviorTree.Proofs.Node.Unused
import BehaviorTree.Proofs.Scope.Identity
import Mathlib.Data.Set.Insert

/-!
# Moorings of stored scopes

A scope decorator remembers under which scope it was last used. Below another scope decorator this
is one that the other one stores, or stored before it got a new one: never a scope further out, and
so never one of the host. `law_moored` says that whatever the engine does keeps it so.
-/

namespace BehaviorTree

variable {ο σ ω : Type}

namespace Memory

/-- The identity of the stored scope, if there is one. -/
def ids (m : Memory) : Set ScopeId := {i | ∃ s ∈ m.scope, s.id = i}

/-- Whether a memory stores none of the scopes `near` around it, and was not last used directly
under one of those `far`; all its identities were given out before `fresh`. -/
structure Moored (fresh : ScopeId) (near far : Set ScopeId) (m : Memory) : Prop where
  ids : ∀ i ∈ m.ids, i.number < fresh.number ∧ i ∉ near
  enclosing : ∀ i ∈ m.enclosing, i.number < fresh.number ∧ i ∉ far
  vacant : m.enclosing = none → m.Vacant

/-- Scopes may come around that are newer. -/
theorem Moored.refit {fresh later : ScopeId} {near near' far far' : Set ScopeId} {m : Memory}
    (h : m.Moored fresh near far) (hl : fresh.number ≤ later.number)
    (hn : ∀ i ∈ near', i ∈ near ∨ fresh.number ≤ i.number)
    (hf : ∀ i ∈ far', i ∈ far ∨ fresh.number ≤ i.number) : m.Moored later near' far' where
  ids i hi := by
    obtain ⟨hlt, hout⟩ := h.ids i hi
    exact ⟨by omega, fun hin ↦ (hn i hin).elim hout (by omega)⟩
  enclosing i hi := by
    obtain ⟨hlt, hout⟩ := h.enclosing i hi
    exact ⟨by omega, fun hin ↦ (hf i hin).elim hout (by omega)⟩
  vacant := h.vacant

end Memory

namespace Node

mutual

/-- Whether the scope decorators of a subtree are moored, with the scopes `near` around the subtree
and all of them but the innermost `far`. -/
def Moored (fresh : ScopeId) : Node σ → (near far : Set ScopeId) → Prop
  | leaf .., _, _ => True
  | composite _ _ _ _ children, near, far => MooredAll fresh children near far
  | decorator _ _ _ _ none, _, _ => True
  | decorator _ _ kind memory (some child), near, far =>
    match kind with
    | .scoped => memory.Moored fresh near far ∧ Moored fresh child (near ∪ memory.ids) near
    | .invert | .succeeder | .loop _ => Moored fresh child near far
termination_by structural n => n

/-- Whether those of several subtrees are. -/
def MooredAll (fresh : ScopeId) : List (Node σ) → (near far : Set ScopeId) → Prop
  | [], _, _ => True
  | c :: rest, near, far => Moored fresh c near far ∧ MooredAll fresh rest near far
termination_by structural ns => ns

end

variable {fresh later : ScopeId} {near near' far far' : Set ScopeId}

private theorem mooredAll_iff {ns : List (Node σ)} :
    MooredAll fresh ns near far ↔ ∀ c ∈ ns, c.Moored fresh near far := by
  induction ns with
  | nil => simp [MooredAll]
  | cons c rest ih => simp [MooredAll, ih]

private theorem moored_composite {tag : Tag} {life : Life} {kind : CompositeKind} {resume : Nat}
    {children : List (Node σ)} :
    (composite tag life kind resume children).Moored fresh near far ↔
      ∀ c ∈ children, c.Moored fresh near far := mooredAll_iff

private theorem moored_decorator_of_ne {tag : Tag} {life : Life} {kind : DecoratorKind}
    {memory : Memory} {child : Node σ} (hk : kind ≠ .scoped) :
    (decorator tag life kind memory (some child)).Moored fresh near far ↔
      child.Moored fresh near far := by
  cases kind with
  | «scoped» => exact absurd rfl hk
  | invert => exact Iff.rfl
  | succeeder => exact Iff.rfl
  | loop limit => exact Iff.rfl

/-- A moored subtree does not mind its lifecycle. -/
theorem moored_withLife {n : Node σ} (life : Life) :
    (n.withLife life).Moored fresh near far ↔ n.Moored fresh near far := by
  cases n with
  | leaf => exact Iff.rfl
  | composite => exact Iff.rfl
  | decorator tag last kind memory child => cases child <;> exact Iff.rfl

/-- Other scopes around that are among the old ones, or new, leave a subtree moored. -/
theorem Moored.refit {n : Node σ} (h : n.Moored fresh near far) (hl : fresh.number ≤ later.number)
    (hn : ∀ i ∈ near', i ∈ near ∨ fresh.number ≤ i.number)
    (hf : ∀ i ∈ far', i ∈ far ∨ fresh.number ≤ i.number) : n.Moored later near' far' := by
  induction n using child_induction generalizing near near' far far' with
  | step n ih =>
    cases n with
    | leaf => trivial
    | composite =>
      rw [moored_composite] at h ⊢
      exact fun c hc ↦ ih c hc (h c hc) hn hf
    | decorator tag life kind memory child =>
      cases child with
      | none => trivial
      | some child =>
        have hmem : child ∈ (decorator tag life kind memory (some child)).children := by
          simp [children]
        by_cases hk : kind = .scoped
        · subst hk
          obtain ⟨hmemory, hchild⟩ := h
          refine ⟨hmemory.refit hl hn hf, ih child hmem hchild ?_ hn⟩
          rintro i (hi | hi)
          · exact (hn i hi).imp_left (Set.mem_union_left _)
          · exact .inl (Set.mem_union_right _ hi)
        · rw [moored_decorator_of_ne hk] at h ⊢
          exact ih child hmem h hn hf

/-- Each node of a moored subtree is moored, with the same scopes around and maybe more. -/
theorem Moored.at_mem {n m : Node σ} (h : n.Moored fresh near far) (hm : m ∈ n.preorder) :
    ∃ near' far', near ⊆ near' ∧ m.Moored fresh near' far' := by
  induction n using child_induction generalizing near far with
  | step n ih =>
    rw [preorder_eq] at hm
    rcases List.mem_cons.mp hm with rfl | hm
    · exact ⟨near, far, Set.Subset.rfl, h⟩
    · obtain ⟨c, hc, hmc⟩ := mem_preorders.mp hm
      cases n with
      | leaf => cases hc
      | composite => exact ih c hc (moored_composite.mp h c hc) hmc
      | decorator tag life kind memory child =>
        cases child with
        | none => cases hc
        | some child =>
          obtain rfl : c = child := by simpa [children] using hc
          by_cases hk : kind = .scoped
          · subst hk
            obtain ⟨near', far', hsub, hmoored⟩ := ih c hc h.2 hmc
            exact ⟨near', far', Set.subset_union_left.trans hsub, hmoored⟩
          · exact ih c hc ((moored_decorator_of_ne hk).mp h) hmc

/-- The scopes that an unused subtree stores were used under none. -/
theorem moored_of_unused {n : Node σ} (h : n.AllUnused) {others : ScopeId → Nat}
    (hd : Distinct fresh fun i ↦ n.stores i + others i) (hn : ∀ i ∈ near, 0 < others i) :
    n.Moored fresh near far := by
  induction n using child_induction generalizing near far others with
  | step n ih =>
    cases n with
    | leaf => trivial
    | composite tag life kind resume children =>
      refine moored_composite.mpr fun c hc ↦ ih c hc (h.below hc) (hd.of_le fun i ↦ ?_) hn
      rw [stores_composite]
      exact Nat.add_le_add_right (stores_le_storesAll hc i) _
    | decorator tag life kind memory child =>
      cases child with
      | none => trivial
      | some child =>
        have hmem : child ∈ (decorator tag life kind memory (some child)).children := by
          simp [children]
        simp only [stores_decorator_some] at hd
        by_cases hk : kind = .scoped
        · subst hk
          obtain ⟨-, -, henclosing, hvacant⟩ := h.here
          have hstores : ∀ i ∈ memory.ids, memory.stores i = 1 := by
            rintro i ⟨s, hs, rfl⟩
            simp [Memory.stores, Option.mem_def.mp hs]
          have hchild : Distinct fresh fun i ↦ child.stores i + (memory.stores i + others i) :=
            hd.of_le fun i ↦ by omega
          refine ⟨⟨fun i hi ↦ ?_, ?_, fun _ ↦ hvacant⟩, ih child hmem (h.below hmem) hchild ?_⟩
          · have hone := hstores i hi
            have hcount : memory.stores i + child.stores i + others i ≤ _ := hd i
            split at hcount
            · next hlt =>
              refine ⟨hlt, fun hin ↦ ?_⟩
              have hpos := hn i hin
              omega
            · omega
          · rw [henclosing]
            rintro _ ⟨⟩
          · rintro i (hi | hi)
            · exact Nat.lt_of_lt_of_le (hn i hi) (Nat.le_add_left _ _)
            · have hone := hstores i hi
              omega
        · rw [moored_decorator_of_ne hk]
          exact ih child hmem (h.below hmem) (hd.of_le fun i ↦ by omega) hn

/-! ### What the engine keeps -/

/-- Whether something that happens to a node keeps it moored, whatever the scopes around. -/
structure KeepsMoored (n : Node σ) (env : Env ω) (n' : Node σ) (env' : Env ω) : Prop where
  fresh : env.fresh.number ≤ env'.fresh.number
  id : env'.board.id = env.board.id
  moored : ∀ {near far : Set ScopeId}, (∀ i ∈ near, i.number < env.fresh.number) →
    env.board.id.number < env.fresh.number → env.board.id ∉ far →
    n.Moored env.fresh near far → n'.Moored env'.fresh near far

namespace KeepsMoored

variable {n n' n'' : Node σ} {env env' env'' : Env ω}

/-- A node stays moored where no identity is given out and the local scope is the same one, if
whatever scopes around it did moor it still do. -/
theorem of_imp (hf : env'.fresh = env.fresh) (hid : env'.board.id = env.board.id)
    (h : ∀ {near far : Set ScopeId}, n.Moored env.fresh near far → n'.Moored env.fresh near far) :
    KeepsMoored n env n' env' where
  fresh := Nat.le_of_eq (congrArg ScopeId.number hf.symm)
  id := hid
  moored _ _ _ hm := by
    rw [hf]
    exact h hm

private theorem refl (n : Node σ) (env : Env ω) :
    KeepsMoored n env n env := .of_imp rfl rfl fun h ↦ h

private theorem trans (h : KeepsMoored n env n' env') (h' : KeepsMoored n' env' n'' env'') :
    KeepsMoored n env n'' env'' where
  fresh := h.fresh.trans h'.fresh
  id := h'.id.trans h.id
  moored hnear hboard hfar hn := by
    refine h'.moored (fun i hi ↦ (hnear i hi).trans_le h.fresh) ?_ ?_
      (h.moored hnear hboard hfar hn)
    · rw [h.id]
      exact hboard.trans_le h.fresh
    · rwa [h.id]

/-- What keeps the children moored keeps the parent moored, if the scopes around are the same. -/
theorem parent {m m' : Node σ} (cs : List (Node σ)) (h : KeepsMoored n env n' env')
    (hm : ∀ {fresh : ScopeId} {near far : Set ScopeId}, m.Moored fresh near far ↔
      n.Moored fresh near far ∧ ∀ c ∈ cs, c.Moored fresh near far)
    (hm' : ∀ {fresh : ScopeId} {near far : Set ScopeId}, n'.Moored fresh near far →
      (∀ c ∈ cs, c.Moored fresh near far) → m'.Moored fresh near far) :
    KeepsMoored m env m' env' where
  fresh := h.fresh
  id := h.id
  moored hnear hboard hfar hmoored := by
    obtain ⟨hn, hcs⟩ := hm.mp hmoored
    exact hm' (h.moored hnear hboard hfar hn) fun c hc ↦
      (hcs c hc).refit h.fresh (fun _ ↦ .inl) fun _ ↦ .inl

/-- The scope in use is the stored one or a new one; below it nothing was used under the scopes
further out. -/
theorem inScope {tag : Tag} {memory : Memory} {c c' : Node σ} {inner : Env ω}
    (h : KeepsMoored c (env.enter memory) c' inner) (life life' : Life) {s : Scope}
    (hs : s.id = inner.board.id) :
    KeepsMoored (decorator tag life .scoped memory (some c)) env
      (decorator tag life' .scoped (memory.keep env.board.id s) (some c')) (env.leave inner) where
  fresh := (env.fresh_le_enter memory).trans h.fresh
  id := rfl
  moored {near far} hnear hboard hfar hmoored := by
    obtain ⟨hmemory, hchild⟩ := hmoored
    obtain ⟨hi, hc⟩ : ((env.enter memory).board.id.number < (env.enter memory).fresh.number ∧
        (env.enter memory).board.id ∉ near) ∧
        c.Moored (env.enter memory).fresh (near ∪ {(env.enter memory).board.id}) near := by
      rcases env.enter_cases memory with ⟨t, ht, -, he⟩ | ⟨-, he⟩
      · rw [he]
        refine ⟨hmemory.ids t.id ⟨t, ht, rfl⟩, hchild.refit (Nat.le_refl _) ?_ fun _ ↦ .inl⟩
        rintro i (hi | rfl)
        · exact .inl (.inl hi)
        · exact .inl (.inr ⟨t, ht, rfl⟩)
      · rw [he]
        refine ⟨⟨Nat.lt_succ_self _, fun hin ↦ Nat.lt_irrefl _ (hnear _ hin)⟩,
          hchild.refit (Nat.le_succ _) ?_ fun _ ↦ .inl⟩
        rintro i (hi | rfl)
        · exact .inl (.inl hi)
        · exact .inr (Nat.le_refl _)
    have hle := env.fresh_le_enter memory
    have hnear' : ∀ i ∈ near ∪ {(env.enter memory).board.id},
        i.number < (env.enter memory).fresh.number := by
      rintro i (hin | rfl)
      · exact (hnear i hin).trans_le hle
      · exact hi.1
    have hids : (memory.keep env.board.id s).ids = {(env.enter memory).board.id} := by
      ext i
      rw [Set.mem_singleton_iff, ← h.id, ← hs]
      exact ⟨fun ⟨_, ht, hti⟩ ↦ by cases ht; exact hti.symm, fun heq ↦ ⟨s, rfl, heq.symm⟩⟩
    refine ⟨⟨fun i hin ↦ ?_, ?_, fun hnone ↦ absurd hnone (Option.some_ne_none _)⟩, ?_⟩
    · rw [hids, Set.mem_singleton_iff] at hin
      subst hin
      exact ⟨hi.1.trans_le h.fresh, hi.2⟩
    · rintro _ ⟨⟩
      exact ⟨hboard.trans_le (hle.trans h.fresh), hfar⟩
    · rw [hids]
      exact h.moored hnear' hi.1 hi.2 hc

end KeepsMoored

/-- Whatever the engine does keeps nodes moored. -/
theorem law_moored (B : Behavior ο σ ω) :
    Law B (fun _ env ↦ env) (fun (k : Unit) _ ↦ k) fun _ ↦ KeepsMoored where
  refl _ := .refl
  trans := .trans
  probe _ _ _ _ _ := .of_imp rfl rfl fun h ↦ h
  begin _ n env := by
    unfold begin
    split
    · exact .refl n env
    · cases n with
      | leaf => exact .of_imp rfl rfl fun h ↦ h
      | composite => exact .of_imp rfl rfl fun h ↦ h
      | decorator tag life kind memory child =>
        refine .of_imp rfl rfl fun h ↦ ?_
        cases child with
        | none => trivial
        | some child =>
          cases kind with
          | «scoped» => exact ⟨⟨h.1.ids, h.1.enclosing, h.1.vacant⟩, h.2⟩
          | invert => exact h
          | succeeder => exact h
          | loop limit => exact h
  life _ _ _ life _ := .of_imp rfl rfl (moored_withLife life).mpr
  run _ _ _ _ _ := .of_imp rfl rfl fun h ↦ h
  stop _ _ _ _ _ _ := .of_imp rfl rfl fun h ↦ h
  composite _ _ _ _ _ _ _ _ _ := .of_imp rfl rfl fun h ↦ h
  child tag life kind i front back _ _ _ _ h := by
    refine .parent (front ++ back) h ?_ fun hc hcs ↦ moored_composite.mpr fun d hd ↦ ?_
    · simp only [moored_composite, List.forall_mem_append, List.forall_mem_cons]
      exact and_left_comm
    · simp only [List.forall_mem_append] at hcs
      simp only [List.mem_append, List.mem_cons] at hd
      rcases hd with hd | rfl | hd
      · exact hcs.1 d hd
      · exact hc
      · exact hcs.2 d hd
  childless _ _ _ _ _ _ _ := .of_imp rfl rfl fun h ↦ h
  only _ _ _ _ hk _ _ _ _ _ _ h := by
    refine .parent [] h ?_ fun hc _ ↦ (moored_decorator_of_ne hk).mpr hc
    simp [moored_decorator_of_ne hk]
  inScope _ _ _ _ _ h _ := h.inScope _ _ rfl
  endScope _ _ _ _ _ h _ _ := h.inScope _ _ rfl

/-- Aborting a node keeps it moored. -/
theorem keepsMoored_abort (B : Behavior ο σ ω) (n : Node σ) (env : Env ω) :
    KeepsMoored n env (n.abort B env).1 (n.abort B env).2 := (law_moored B).abort (k := ()) n env

/-- Running a node keeps it moored. -/
theorem keepsMoored_run (B : Behavior ο σ ω) (n : Node σ) (env : Env ω) :
    KeepsMoored n env (n.run B env).node (n.run B env).env :=
  (law_moored B).runs (run_eq B) n () env

end Node

end BehaviorTree
