import BehaviorTree.Proofs.Node.Halt

/-!
# One run of a sequencer

A run of a sequencer that checks no child again is a run over its children and nothing else. A
sequencer fails only if one of its children does, in a probe or in a run. So it does not fail on a
blackboard on which none of them does, as long as each leaves such a blackboard to the next.
-/

namespace BehaviorTree

variable {ο σ ω : Type}

namespace Node

variable {B : Behavior ο σ ω} {ns : List (Node σ)}

/-- Where no child is to be checked again, a run of a sequencer is a run over its children. -/
theorem run_sequencer_of_unchecked (B : Behavior ο σ ω)
    (h : ∀ c ∈ ns, c.flags.reEvaluate = false) (tag : Tag) (life : Life) (resume : Nat)
    (env : Env ω) :
    (composite tag life .sequencer resume ns).run B env =
      let r := scanFrom (Node.run B) .success
        (min (if life.started then resume else 0) ns.length) ns env
      ⟨r.status, composite tag ⟨.ofStatus r.status, r.status.isRunning⟩ .sequencer
        (if r.status = .running then r.passed else 0) r.children, r.env⟩ := by
  have hwork (index : Nat) : workSequencer B (Node.run B) index ns env =
      scanFrom (Node.run B) .success (min index ns.length) ns env := by
    rw [workSequencer_eq, probeBefore_of_unflagged h]
  have hhalted (index : Nat) : Scan.Halted (workSequencer B (Node.run B) index ns env) := by
    rw [hwork]
    exact halted_scanFrom (Nat.min_le_right _ _) env
  obtain ⟨state, started⟩ := life
  rw [run_eq, advance]
  simp only [← hwork]
  cases started <;> exact settle_halted (hhalted _) tag state (.inl rfl)

/-- Where no node gives the wanted answer, there is no hit. -/
theorem fst_probe_of_ne {flag : Flags → Bool} {wanted : Status} {b : Blackboard}
    (h : ∀ n ∈ ns, ∀ w, (n.evaluate B b w).1 ≠ wanted) (w : ω) :
    (probe B flag wanted ns b w).1 = none := by
  induction ns generalizing w with
  | nil => rfl
  | cons n rest ih =>
    have hrest (w : ω) : (probe B flag wanted rest b w).1 = none :=
      ih (fun m hm ↦ h m (List.mem_cons_of_mem _ hm)) w
    simp only [probe, h n List.mem_cons_self, if_false, hrest]
    split <;> rfl

section

variable {P : Blackboard → Prop}
  (hrun : ∀ c ∈ ns, ∀ env, P env.board →
    (c.run B env).status ≠ .failure ∧ P (c.run B env).env.board)

include hrun

private theorem status_scan_ne_failure {env : Env ω} (he : P env.board) :
    (scan (run B) .success ns env).status ≠ .failure := by
  induction ns generalizing env with
  | nil => simp [scan]
  | cons c rest ih =>
    obtain ⟨hc, hboard⟩ := hrun c List.mem_cons_self env he
    by_cases hs : (c.run B env).status = .success
    · rw [scan_cons_of_pass hs]
      exact ih (fun d hd ↦ hrun d (List.mem_cons_of_mem _ hd)) hboard
    · rw [scan_cons_of_ne hs]
      exact hc

/-- A sequencer of children that do not fail does not fail. -/
theorem status_sequencer_ne_failure (hprobe : ∀ c ∈ ns, ∀ b w, (c.evaluate B b w).1 ≠ .failure)
    (tag : Tag) (life : Life) (resume : Nat) {env : Env ω} (he : P env.board) :
    ((composite tag life .sequencer resume ns).run B env).status ≠ .failure := by
  have hwork (resume : Nat) : (workSequencer B (run B) resume ns env).status ≠ .failure := by
    have hnone : (probeBefore B (·.reEvaluate) .failure resume ns env).1 = none :=
      fst_probe_of_ne (fun c hc ↦ hprobe c (List.mem_of_mem_take hc) env.board) env.world
    rw [workSequencer_eq, hnone]
    exact status_scan_ne_failure (fun c hc ↦ hrun c (List.mem_of_mem_drop hc)) he
  rw [run_eq, advance, status_settle, begin]
  split
  · exact hwork resume
  · exact hwork 0

end

end Node

end BehaviorTree
