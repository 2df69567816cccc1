import BehaviorTree.Proofs.Node.Edits
import BehaviorTree.Proofs.Node.Moved
import BehaviorTree.Proofs.Tree.Copy

/-!
# The index to resume at

The index at which a composite resumes is at most the number of its children. A run and an abort
keep it there whatever happens to the children, and so do edits, which change how many there are;
so it is there in every node that a host can come by (`Reachable.allInRange`).
-/

namespace BehaviorTree

variable {ο σ ω : Type}

namespace Node

/-- Whether a composite resumes at one of its children or behind them. -/
def InRange : Node σ → Prop
  | composite _ _ _ resume children => resume ≤ children.length
  | _ => True

/-- Whether that is so everywhere in a subtree. -/
abbrev AllInRange (n : Node σ) : Prop := n.Everywhere InRange

variable {B : Behavior ο σ ω} {n m c : Node σ} {env : Env ω}

/-- Whether the index of a node is in range does not depend on its life. -/
@[simp] theorem inRange_withLife {life : Life} : (n.withLife life).InRange ↔ n.InRange := by
  cases n <;> rfl

/-- Nodes that were never run resume at the first child. -/
theorem Unused.inRange (h : n.Unused) : n.InRange := by
  cases n with
  | leaf => trivial
  | composite _ _ _ resume children =>
    obtain ⟨-, rfl⟩ := h
    exact Nat.zero_le _
  | decorator => trivial

private theorem allInRange_of_allUnused (h : n.AllUnused) :
    n.AllInRange := fun m hm ↦ (h m hm).inRange

/-! ### Runs and aborts -/

/-- The beginning of a run keeps the index in range. -/
theorem InRange.begin (h : n.InRange) (env : Env ω) : (n.begin B env).1.InRange := by
  unfold Node.begin
  split
  · exact h
  · cases n with
    | leaf => trivial
    | composite => exact Nat.zero_le _
    | decorator => trivial

/-- A loop over children passes no more than there are. -/
theorem passed_scan_le (run : Node σ → Env ω → Step σ ω) (pass : Status) (ns : List (Node σ))
    (env : Env ω) :
    let r := scan run pass ns env
    r.passed ≤ r.children.length := by
  induction ns generalizing env with
  | nil => exact Nat.le_refl 0
  | cons c rest ih =>
    by_cases hs : (run c env).status = pass
    · rw [scan_cons_of_pass hs]
      exact Nat.succ_le_succ (ih _)
    · rw [scan_cons_of_ne hs]
      exact Nat.zero_le _

private theorem passed_scanFrom_le (run : Node σ → Env ω → Step σ ω) (pass : Status) {index : Nat}
    {ns : List (Node σ)} (hi : index ≤ ns.length) (env : Env ω) :
    let r := scanFrom run pass index ns env
    r.passed ≤ r.children.length := by
  have hpassed := passed_scan_le run pass (ns.drop index) env
  simp only [scanFrom, List.length_append, List.length_take_of_le hi]
  omega

/-- A tick of work leaves off at a child, or behind them all. -/
theorem InRange.work (h : n.InRange) (env : Env ω) :
    (n.work B (Node.run B) env).node.InRange := by
  cases n with
  | leaf => trivial
  | composite tag life kind resume children =>
    cases kind with
    | sequencer =>
      simp only [Node.work, workSequencer_eq]
      split
      · exact Nat.min_le_right _ _
      · exact passed_scanFrom_le _ _ (Nat.min_le_right _ _) _
    | selector =>
      simp only [Node.work, workSelector_eq]
      split
      · next first hfirst =>
        have hlt := probeBefore_lt hfirst
        refine passed_scanFrom_le _ _ ?_ _
        rw [length_abortAt]
        omega
      · exact passed_scanFrom_le _ _ (Nat.min_le_right _ _) _
    | parallel mode =>
      have hlength := (moved_sweep (B := B) children env).length_eq
      exact Nat.le_trans h (Nat.le_of_eq hlength)
  | decorator tag life kind memory child => cases child <;> trivial

/-- Stopping sets the index back. -/
theorem inRange_stop (B : Behavior ο σ ω) (n : Node σ) (env : Env ω) :
    (n.stop B env).1.InRange := by
  cases n with
  | leaf => trivial
  | composite _ _ kind => cases kind <;> exact Nat.zero_le _
  | decorator _ _ kind _ child =>
    cases child with
    | none => trivial
    | some => cases kind <;> trivial

private theorem InRange.run (h : n.InRange) (env : Env ω) : (n.run B env).node.InRange := by
  rw [run_eq, advance, settle]
  split
  · rw [inRange_withLife]
    exact inRange_stop B _ _
  · rw [inRange_withLife]
    exact (h.begin env).work _

private theorem InRange.abort (h : n.InRange) (env : Env ω) : (n.abort B env).1.InRange := by
  unfold Node.abort abandon
  split
  · rw [inRange_withLife]
    exact inRange_stop B n env
  · rw [inRange_withLife]
    exact h

private theorem Moved.inRange (h : n.Moved B m) (hn : n.InRange) : m.InRange := by
  induction h with
  | refl => exact hn
  | run _ env ih => exact ih.run env
  | abort _ env ih => exact ih.abort env

/-- Each node that came about by runs and aborts came about from one that was there. -/
theorem MovedAll.exists_of_mem {ns ms : List (Node σ)} (h : MovedAll B ns ms) (hm : m ∈ ms) :
    ∃ c ∈ ns, c.Moved B m := by
  induction h with
  | nil => cases hm
  | cons hc _ ih =>
    rcases List.mem_cons.mp hm with rfl | hm
    · exact ⟨_, List.mem_cons_self, hc⟩
    · obtain ⟨d, hd, hmoved⟩ := ih hm
      exact ⟨d, List.mem_cons_of_mem _ hd, hmoved⟩

/-- Whatever runs and aborts a node goes through, the index is in range everywhere below it. The
induction is on the node, as its children go through runs and aborts of their own. -/
theorem Moved.allInRange (h : n.Moved B m) (hn : n.AllInRange) : m.AllInRange := by
  induction n using child_induction generalizing m with
  | step n ih =>
    refine everywhere_iff.mpr ⟨h.inRange hn.here, fun d hd ↦ ?_⟩
    obtain ⟨c, hc, hmoved⟩ := h.children.exists_of_mem hd
    exact ih c hc hmoved (hn.below hc)

/-! ### Edits -/

/-- A child that is added lets the index stay where it is. -/
theorem allInRange_addChild (hn : n.AllInRange) (hc : c.AllInRange)
    (h : n.addChild c = .ok m) : m.AllInRange := by
  cases n with
  | leaf => cases h
  | composite tag life kind resume children =>
    obtain rfl := Except.ok.inj h
    have hresume : resume ≤ children.length := hn.here
    refine everywhere_iff.mpr ⟨?_, fun d hd ↦ ?_⟩
    · simp only [InRange, List.length_append]
      omega
    · rcases List.mem_append.mp hd with hd | hd
      · exact hn.below hd
      · exact List.mem_singleton.mp hd ▸ hc
  | decorator tag life kind memory child =>
    cases child with
    | some => cases h
    | none =>
      obtain rfl := Except.ok.inj h
      exact everywhere_iff.mpr ⟨trivial, fun d hd ↦ List.mem_singleton.mp hd ▸ hc⟩

/-- A child that is taken out was a child, and the index is moved to stay in range. -/
theorem allInRange_removeChild {index : Nat} (hn : n.AllInRange)
    (h : n.removeChild index = some (c, m)) : c.AllInRange ∧ m.AllInRange := by
  cases n with
  | leaf => cases h
  | composite tag life kind resume children =>
    obtain ⟨d, hd, heq⟩ := Option.map_eq_some_iff.mp h
    obtain ⟨rfl, rfl⟩ := Prod.mk.inj heq
    have hlt := (List.getElem?_eq_some_iff.mp hd).1
    refine ⟨hn.below (List.mem_of_getElem? hd), everywhere_iff.mpr ⟨?_, fun e he ↦ ?_⟩⟩
    · simp only [InRange, List.length_eraseIdx_of_lt hlt]
      omega
    · exact hn.below (List.mem_of_mem_eraseIdx he)
  | decorator tag life kind memory child =>
    simp only [removeChild] at h
    split at h
    · obtain ⟨d, rfl, heq⟩ := Option.map_eq_some_iff.mp h
      obtain ⟨rfl, rfl⟩ := Prod.mk.inj heq
      exact ⟨hn.below List.mem_cons_self,
        everywhere_iff.mpr ⟨trivial, fun e he ↦ absurd he List.not_mem_nil⟩⟩
    · cases h

private theorem AllInRange.handle (hn : n.AllInRange) {a : Handling σ ω}
    (ha : ∀ child, a = .add child → child.AllInRange) : (n.handle B a).AllInRange := by
  cases a with
  | run env => exact (Moved.refl.run env).allInRange hn
  | abort env => exact (Moved.refl.abort env).allInRange hn
  | add child =>
    simp only [Node.handle]
    split
    · next h => exact allInRange_addChild hn (ha child rfl) h
    · exact hn
  | remove index =>
    simp only [Node.handle]
    split
    · next h => exact (allInRange_removeChild hn h).2
    · exact hn

/-! ### Nodes that a host can come by -/

/-- Whether a host can come by a node: it builds nodes over others, names them, gets them from pools
and as instances, runs, aborts and edits them in any order, and takes children out of them. Probing
a node changes nothing of it. -/
inductive Reachable (B : Behavior ο σ ω) : Node σ → Prop where
  | leaf (tag : Tag) (state : σ) : Reachable B (newLeaf tag state)
  | composite (tag : Tag) (kind : CompositeKind) {children : List (Node σ)}
      (h : ∀ c ∈ children, Reachable B c) : Reachable B (newComposite tag kind children)
  | decorator (tag : Tag) (kind : DecoratorKind) {child : Option (Node σ)}
      (h : ∀ c ∈ child, Reachable B c) : Reachable B (newDecorator tag kind child)
  | named (tag : Tag) {n : Node σ} (h : Reachable B n) : Reachable B (n.withTag tag)
  | acquired {pool pool' : Pool σ} {model n : Node σ} (h : pool.acquire model = (.ok n, pool')) :
      Reachable B n
  | instantiated {t x : Tree ο σ} {owner : ο} {host host' : Host σ ω}
      (h : t.instantiate B owner host = (.ok x, host')) : Reachable B x.root
  | handled {n : Node σ} (h : Reachable B n) (a : Handling σ ω)
      (ha : ∀ child, a = .add child → Reachable B child) : Reachable B (n.handle B a)
  | taken {n child rest : Node σ} {index : Nat} (h : Reachable B n)
      (ht : n.removeChild index = some (child, rest)) : Reachable B child

/-- Another tag leaves the children. -/
@[simp] theorem children_withTag (tag : Tag) (n : Node σ) :
    (n.withTag tag).children = n.children := by
  cases n <;> rfl

private theorem inRange_withTag {tag : Tag} : (n.withTag tag).InRange ↔ n.InRange := by
  cases n <;> rfl

/-- The index is in range in every node that a host can come by. -/
theorem Reachable.allInRange (h : n.Reachable B) : n.AllInRange := by
  induction h with
  | leaf tag state => exact allInRange_of_allUnused (allUnused_newLeaf tag state)
  | composite tag kind _ ih => exact everywhere_iff.mpr ⟨Nat.zero_le _, ih⟩
  | decorator tag kind _ ih =>
    exact everywhere_iff.mpr ⟨trivial, fun c hc ↦ ih c (Option.mem_toList.mp hc)⟩
  | named tag _ ih =>
    refine everywhere_iff.mpr ⟨inRange_withTag.mpr ih.here, fun c hc ↦ ?_⟩
    exact ih.below (children_withTag tag _ ▸ hc)
  | @acquired pool _ model n h =>
    exact allInRange_of_allUnused ((pool.supplied_acquire model).shell n (by rw [h])).unused
  | instantiated h => exact allInRange_of_allUnused (Tree.allUnused_of_made (congrArg Prod.fst h))
  | handled _ a _ ih ih_child => exact ih.handle ih_child
  | taken _ ht ih => exact (allInRange_removeChild ih ht).1

end Node

end BehaviorTree
