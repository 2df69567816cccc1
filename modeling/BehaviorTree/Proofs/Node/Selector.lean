import BehaviorTree.Proofs.Node.Halt

/-!
# One run of a selector

A selector comes to a halt at a child that gave its answer, also when an earlier child took over.
So it stops no child when it settles, and its run is a tick of its work and nothing else
(`run_selector`).
-/

namespace BehaviorTree

variable {ο σ ω : Type}

namespace Node

private theorem halted_workSelector (B : Behavior ο σ ω) (resume : Nat) (ns : List (Node σ))
    (env : Env ω) : Scan.Halted (workSelector B (Node.run B) resume ns env) := by
  rw [workSelector_eq]
  split
  · next first hprobe =>
    have hlt := probeBefore_lt hprobe
    refine halted_scanFrom ?_ _
    rw [length_abortAt]
    omega
  · exact halted_scanFrom (Nat.min_le_right _ _) _

/-- A run of a selector is a tick of its work, from its first child on if it was not started; it
comes back to where it halted as long as it is running. -/
theorem run_selector (B : Behavior ο σ ω) (tag : Tag) (life : Life) (resume : Nat)
    (children : List (Node σ)) (env : Env ω) :
    (composite tag life .selector resume children).run B env =
      let r := workSelector B (Node.run B) (if life.started then resume else 0) children env
      ⟨r.status, composite tag ⟨.ofStatus r.status, r.status.isRunning⟩ .selector
        (if r.status = .running then r.passed else 0) r.children, r.env⟩ := by
  obtain ⟨state, started⟩ := life
  have hhalted := halted_workSelector B (if started then resume else 0) children env
  rw [run_eq, advance]
  cases started <;> exact settle_halted hhalted tag state (.inr rfl)

/-- So it is a tick of its work where it would resume, if that is at the first child unless it is
started. -/
theorem run_selector_eq (B : Behavior ο σ ω) (tag : Tag) {life : Life} {resume : Nat}
    (hbegins : life.started = false → resume = 0) (children : List (Node σ)) (env : Env ω) :
    (composite tag life .selector resume children).run B env =
      let r := workSelector B (Node.run B) resume children env
      ⟨r.status, composite tag ⟨.ofStatus r.status, r.status.isRunning⟩ .selector
        (if r.status = .running then r.passed else 0) r.children, r.env⟩ := by
  have hplace : (if life.started then resume else 0) = resume := by
    split
    · rfl
    · next hs => exact (hbegins (by simpa using hs)).symm
  rw [run_selector, hplace]

/-- Where no child may take over, a run of a selector is a run over its children. -/
theorem run_selector_of_tame (B : Behavior ο σ ω) {children : List (Node σ)}
    (h : ∀ c ∈ children, c.flags.hijack = false) (tag : Tag) (life : Life) (resume : Nat)
    (env : Env ω) :
    (composite tag life .selector resume children).run B env =
      let r := scanFrom (Node.run B) .failure
        (min (if life.started then resume else 0) children.length) children env
      ⟨r.status, composite tag ⟨.ofStatus r.status, r.status.isRunning⟩ .selector
        (if r.status = .running then r.passed else 0) r.children, r.env⟩ := by
  rw [run_selector, workSelector_eq, probeBefore_of_unflagged h]

end Node

end BehaviorTree
