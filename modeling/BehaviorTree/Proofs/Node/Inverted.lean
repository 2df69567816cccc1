import BehaviorTree.Proofs.Node.Selector
import Mathlib.Data.List.Forall2

/-!
# Inverted nodes

An inverting decorator runs with its child from start to end: it changes the answer and nothing
else. So a sequencer over inverted children goes through the motions of a selector over the
children themselves, as long as no child is probed.
-/

namespace BehaviorTree

variable {ο σ ω : Type}

namespace Node

variable {B : Behavior ο σ ω}

/-- A node under a new inverting decorator. -/
def inverted (tag : Tag) (n : Node σ) : Node σ := newDecorator tag .invert (some n)

/-- A run of an inverting decorator is a run of its child; only the answer is another one. -/
theorem run_invert (B : Behavior ο σ ω) (tag : Tag) (life : Life) (memory : Memory)
    (child : Node σ) (env : Env ω) :
    (decorator tag life .invert memory (some child)).run B env =
      let s := child.run B env
      ⟨s.status.invert, decorator tag ⟨.ofStatus s.status.invert, s.status.isRunning⟩ .invert
        (if life.started then memory else { memory with count := 0 }) (some s.node), s.env⟩ := by
  have hwork : (decorator tag life .invert memory (some child)).run B env =
      let s := child.run B env
      settle B ⟨s.status.invert, decorator tag { life with started := true } .invert
        (if life.started then memory else { memory with count := 0 }) (some s.node), s.env⟩ := by
    obtain ⟨state, started⟩ := life
    rw [run_eq, advance]
    cases started <;> rfl
  have hstarted := started_run B child env
  simp only [hwork]
  generalize child.run B env = s at hstarted
  by_cases hs : s.status = .running
  · rw [settle_of_running (Status.invert_eq_running_iff.mpr hs), hs]
    rfl
  · rw [settle_of_ne_running (mt Status.invert_eq_running_iff.mp hs)]
    simp only [stop, hstarted, Status.isRunning_eq_false hs, withLife, Bool.false_eq_true, if_false]

/-- An inverting decorator is aborted with its child. -/
theorem abort_invert (B : Behavior ο σ ω) {tag : Tag} {life : Life} {memory : Memory}
    {child : Node σ} (h : (decorator tag life .invert memory (some child)).started = true)
    (hc : child.started = true) (env : Env ω) :
    (decorator tag life .invert memory (some child)).abort B env =
      (decorator tag .fresh .invert memory (some (child.abort B env).1),
        (child.abort B env).2) := by
  rw [abort_of_started h]
  simp only [stop, hc, if_true, withLife]
  rfl

/-- Whether a node is an inverting decorator over another one. The flags that a composite over
either of them would look at are unset. -/
inductive Inverts (c : Node σ) : Node σ → Prop where
  | mk {tag : Tag} (life : Life) (memory : Memory) (unchecked : tag.flags.reEvaluate = false)
      (tame : c.flags.hijack = false) : Inverts c (decorator tag life .invert memory (some c))

namespace Inverts

variable {c d : Node σ}

private theorem hijack (h : Inverts c d) : c.flags.hijack = false := by
  obtain ⟨-, -, -, htame⟩ := h
  exact htame

private theorem reEvaluate (h : Inverts c d) : d.flags.reEvaluate = false := by
  obtain ⟨-, -, hunchecked, -⟩ := h
  exact hunchecked

/-- After a run an inverting decorator is over what the run made of its child. -/
theorem run (h : Inverts c d) (env : Env ω) :
    (d.run B env).status = (c.run B env).status.invert ∧
      (d.run B env).env = (c.run B env).env ∧ Inverts (c.run B env).node (d.run B env).node := by
  obtain ⟨life, memory, hunchecked, htame⟩ := h
  rw [run_invert]
  exact ⟨rfl, rfl, .mk _ _ hunchecked (by rwa [flags, tag_run])⟩

private theorem abort (h : Inverts c d) (hc : c.started = true) (hd : d.started = true)
    (env : Env ω) :
    (d.abort B env).2 = (c.abort B env).2 ∧ Inverts (c.abort B env).1 (d.abort B env).1 := by
  obtain ⟨life, memory, hunchecked, htame⟩ := h
  rw [abort_invert B hd hc]
  exact ⟨rfl, .mk _ _ hunchecked (by rwa [flags, tag_abort])⟩

end Inverts

/-! ### Several of them -/

/-- Whether two runs over children came equally far, over inverted children the one and with the
inverted answer. -/
structure Scan.Inverts (r r' : Scan σ ω) : Prop where
  status : r'.status = r.status.invert
  passed : r'.passed = r.passed
  children : List.Forall₂ Node.Inverts r.children r'.children
  env : r'.env = r.env

variable {cs ds : List (Node σ)}

/-- None of the children may take over, and none of the inverted ones is to be checked again. -/
theorem unflagged_of_inverts (h : List.Forall₂ Inverts cs ds) :
    (∀ c ∈ cs, c.flags.hijack = false) ∧ ∀ d ∈ ds, d.flags.reEvaluate = false := by
  induction h with
  | nil => simp
  | cons hcd _ ih =>
    exact ⟨List.forall_mem_cons.mpr ⟨hcd.hijack, ih.1⟩,
      List.forall_mem_cons.mpr ⟨hcd.reEvaluate, ih.2⟩⟩

/-- Inverted children pass where the children themselves do not succeed. -/
theorem inverts_scan (h : List.Forall₂ Inverts cs ds) (env : Env ω) :
    Scan.Inverts (scan (run B) .failure cs env) (scan (run B) .success ds env) := by
  induction h generalizing env with
  | nil => exact ⟨rfl, rfl, .nil, rfl⟩
  | @cons c d cs ds hcd hrest ih =>
    obtain ⟨hstatus, henv, hnode⟩ := hcd.run (B := B) env
    by_cases hs : (c.run B env).status = .failure
    · have hs' : (d.run B env).status = .success := by rw [hstatus, hs]; rfl
      rw [scan_cons_of_pass hs, scan_cons_of_pass hs', henv]
      obtain ⟨hstatus, hpassed, hchildren, henv⟩ := ih (c.run B env).env
      exact ⟨hstatus, congrArg (· + 1) hpassed, .cons hnode hchildren, henv⟩
    · have hs' : (d.run B env).status ≠ .success := by
        rw [hstatus]
        intro h
        exact hs (by rw [← Status.invert_invert (c.run B env).status, h]; rfl)
      rw [scan_cons_of_ne hs, scan_cons_of_ne hs']
      exact ⟨hstatus, rfl, .cons hnode hrest, henv⟩

/-- Scans of children that invert each other, with opposite passing answers, invert each other. -/
theorem inverts_scanFrom (h : List.Forall₂ Inverts cs ds) (index : Nat) (env : Env ω) :
    Scan.Inverts (scanFrom (run B) .failure index cs env)
      (scanFrom (run B) .success index ds env) := by
  obtain ⟨hstatus, hpassed, hchildren, henv⟩ :=
    inverts_scan (B := B) (List.forall₂_drop index h) env
  exact ⟨hstatus, congrArg (index + ·) hpassed,
    List.rel_append (List.forall₂_take index h) hchildren, henv⟩

/-- Where both the child and its inversion suspended, both or neither are stopped. -/
theorem inverts_stopRunningAt (h : List.Forall₂ Inverts cs ds) {index : Nat}
    (hc : ∀ c ∈ cs[index]?, c.life = ⟨.running, true⟩)
    (hd : ∀ d ∈ ds[index]?, d.life = ⟨.running, true⟩) (env : Env ω) :
    (stopRunningAt B ds index env).2 = (stopRunningAt B cs index env).2 ∧
      List.Forall₂ Inverts (stopRunningAt B cs index env).1 (stopRunningAt B ds index env).1 := by
  induction h generalizing index with
  | nil => exact ⟨rfl, .nil⟩
  | @cons c d cs ds hcd hrest ih =>
    cases index with
    | zero =>
      have hlife : c.life = ⟨.running, true⟩ := hc c rfl
      have hlife' : d.life = ⟨.running, true⟩ := hd d rfl
      obtain ⟨henv, hnode⟩ := hcd.abort (B := B) (by rw [started, hlife]) (by rw [started, hlife'])
        env
      simp only [stopRunningAt_zero, state, hlife, hlife', if_true]
      exact ⟨henv, .cons hnode hrest⟩
    | succ index =>
      obtain ⟨henv, hnodes⟩ := ih (by simpa using hc) (by simpa using hd)
      exact ⟨henv, .cons hcd hnodes⟩

end Node

end BehaviorTree
