import BehaviorTree.Proofs.Node.Step

/-!
# Where a run over children comes to a halt

Children that run in order come to a halt at the one whose answer does not pass, and the life of
that child is the one its answer leaves. So a composite that ends with such an answer has no
running child to stop there (`settle_halted`).
-/

namespace BehaviorTree

variable {ο σ ω : Type}

namespace Node

variable {B : Behavior ο σ ω} {pass : Status} {ns : List (Node σ)}

/-- Where the child at the index is not running, there is nothing to stop. -/
theorem stopRunningAt_of_ne {index : Nat} (h : ∀ c ∈ ns[index]?, c.state ≠ .running)
    (env : Env ω) : stopRunningAt B ns index env = (ns, env) := by
  induction ns generalizing index with
  | nil => rfl
  | cons c rest ih =>
    cases index with
    | zero =>
      have hc : c.state ≠ .running := h c rfl
      simp only [stopRunningAt_zero, hc, if_false]
    | succ index =>
      have hrest : stopRunningAt B rest index env = (rest, env) :=
        ih fun d hd ↦ h d (by simpa using hd)
      simp only [stopRunningAt_succ, hrest]

/-- Whether the child at which a scan came to a halt, if it did, has the life that the answer
leaves. -/
def Scan.Halted (r : Scan σ ω) : Prop :=
  ∀ c ∈ r.children[r.passed]?, c.life = ⟨.ofStatus r.status, r.status.isRunning⟩

/-- Children that are run in order come to a halt at one that gave the answer. -/
theorem halted_scan (ns : List (Node σ)) (env : Env ω) :
    Scan.Halted (scan (Node.run B) pass ns env) := by
  intro c h
  induction ns generalizing env with
  | nil => cases h
  | cons n rest ih =>
    by_cases hs : (n.run B env).status = pass
    · rw [scan_cons_of_pass hs] at h ⊢
      exact ih _ (by simpa using h)
    · rw [scan_cons_of_ne hs] at h ⊢
      obtain rfl : (n.run B env).node = c := by simpa using h
      exact life_run B n env

/-- A scan from an index in range leaves the child it halts at as the answer says. -/
theorem halted_scanFrom {index : Nat} (hi : index ≤ ns.length) (env : Env ω) :
    Scan.Halted (scanFrom (Node.run B) pass index ns env) := by
  intro c h
  simp only [scanFrom] at h ⊢
  apply halted_scan
  have hlength : (ns.take index).length = index := List.length_take_of_le hi
  rw [List.getElem?_append_right (by omega), hlength, Nat.add_sub_cancel_left] at h
  exact h

/-- A sequencer or selector that came to a halt stops no child when it settles. -/
theorem settle_halted {r : Scan σ ω} (hr : Scan.Halted r) (tag : Tag) (state : NodeState)
    {kind : CompositeKind} (hkind : kind = .sequencer ∨ kind = .selector) :
    settle B ⟨r.status, composite tag ⟨state, true⟩ kind r.passed r.children, r.env⟩ =
      ⟨r.status, composite tag ⟨.ofStatus r.status, r.status.isRunning⟩ kind
        (if r.status = .running then r.passed else 0) r.children, r.env⟩ := by
  by_cases hs : r.status = .running
  · rw [settle_of_running hs, hs]
    rfl
  · have hstop : stopRunningAt B r.children r.passed r.env = (r.children, r.env) := by
      refine stopRunningAt_of_ne (fun c hc ↦ ?_) r.env
      rw [Node.state, hr c hc]
      exact mt NodeState.ofStatus_eq_running_iff.mp hs
    have hterminal := mt Status.isRunning_iff.mp hs
    rw [settle_of_ne_running hs, if_neg hs]
    rcases hkind with rfl | rfl <;> simp only [stop, hstop, withLife, hterminal]

end Node

end BehaviorTree
