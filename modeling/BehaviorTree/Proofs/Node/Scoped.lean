import BehaviorTree.Proofs.Node.Step

/-!
# Scope decorators and the blackboard around them

What happens below a scope decorator happens in its scope. The blackboard around it comes out of a
run, and of an abort, as it went in.
-/

namespace BehaviorTree

variable {ο σ ω : Type}

namespace Node

/-- Whether a node is a scope decorator. -/
def IsScoped : Node σ → Prop
  | decorator _ _ kind _ _ => kind = .scoped
  | _ => False

private theorem IsScoped.withLife {n : Node σ} (h : n.IsScoped) (life : Life) :
    (n.withLife life).IsScoped := by
  cases n <;> exact h

variable {B : Behavior ο σ ω} {n : Node σ}

/-- Stopping a scope decorator leaves the blackboard around it. -/
theorem IsScoped.stop (h : n.IsScoped) (env : Env ω) :
    (n.stop B env).1.IsScoped ∧ (n.stop B env).2.board = env.board := by
  cases n with
  | leaf => cases h
  | composite => cases h
  | decorator tag life kind memory child =>
    obtain rfl : kind = .scoped := h
    cases child with
    | none => exact ⟨rfl, rfl⟩
    | some child => exact ⟨rfl, rfl⟩

/-- Aborting a scope decorator leaves the blackboard around it. -/
theorem IsScoped.abort (h : n.IsScoped) (env : Env ω) :
    (n.abort B env).1.IsScoped ∧ (n.abort B env).2.board = env.board := by
  cases hs : n.started with
  | false =>
    rw [abort_of_not_started hs]
    exact ⟨h.withLife _, rfl⟩
  | true =>
    obtain ⟨hscoped, hboard⟩ := h.stop (B := B) env
    rw [abort_of_started hs]
    exact ⟨hscoped.withLife _, hboard⟩

/-- Children that leave the blackboard when they are aborted leave it when one of them is stopped.
-/
theorem board_stopRunningAt {ns : List (Node σ)}
    (h : ∀ c ∈ ns, ∀ env, (c.abort B env).2.board = env.board) (index : Nat) (env : Env ω) :
    (stopRunningAt B ns index env).2.board = env.board := by
  induction ns generalizing index with
  | nil => rfl
  | cons c rest ih =>
    cases index with
    | zero =>
      rw [stopRunningAt_zero]
      by_cases hs : c.state = .running
      · simp only [hs, if_true, h c List.mem_cons_self]
      · simp only [hs, if_false]
    | succ index =>
      rw [stopRunningAt_succ]
      exact ih (fun d hd ↦ h d (List.mem_cons_of_mem _ hd)) index

/-- A scope decorator begins its run without touching the surroundings. -/
theorem IsScoped.begin (h : n.IsScoped) (env : Env ω) :
    (n.begin B env).1.IsScoped ∧ (n.begin B env).2 = env := by
  unfold Node.begin
  split
  · exact ⟨h, rfl⟩
  · cases n with
    | leaf => cases h
    | composite => cases h
    | decorator => exact ⟨h, rfl⟩

private theorem IsScoped.work (h : n.IsScoped) (run : Node σ → Env ω → Step σ ω) (env : Env ω) :
    (n.work B run env).node.IsScoped ∧ (n.work B run env).env.board = env.board := by
  cases n with
  | leaf => cases h
  | composite => cases h
  | decorator tag life kind memory child =>
    obtain rfl : kind = .scoped := h
    cases child with
    | none => exact ⟨rfl, rfl⟩
    | some child => exact ⟨rfl, rfl⟩

/-- Running a scope decorator leaves the blackboard around it. -/
theorem IsScoped.run (h : n.IsScoped) (env : Env ω) :
    (n.run B env).node.IsScoped ∧ (n.run B env).env.board = env.board := by
  obtain ⟨hbegin, henv⟩ := h.begin (B := B) env
  obtain ⟨hwork, hboard⟩ := hbegin.work (B := B) (Node.run B) (n.begin B env).2
  rw [run_eq, advance]
  generalize (n.begin B env).1.work B (Node.run B) (n.begin B env).2 = s at hwork hboard ⊢
  rw [henv] at hboard
  by_cases hs : s.status = .running
  · rw [settle_of_running hs]
    exact ⟨hwork.withLife _, hboard⟩
  · obtain ⟨hstop, hleft⟩ := hwork.stop (B := B) s.env
    rw [settle_of_ne_running hs]
    exact ⟨hstop.withLife _, hleft.trans hboard⟩

end Node

end BehaviorTree
