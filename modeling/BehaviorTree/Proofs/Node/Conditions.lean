import BehaviorTree.Leaf.Basic
import BehaviorTree.Proofs.Node.Step
import Mathlib.Data.List.Forall2

/-!
# Conditions before a child

A condition is a leaf that answers whether a predicate holds on the blackboard, in a run as well as
in a probe, and does nothing else. Where conditions stand before one more child, a run over all of
them comes to that child if every condition gives the answer that passes, and a probe of the
conditions tells whether it will.
-/

namespace BehaviorTree

variable {ο σ ω : Type}

/-- Hooks that answer on a leaf whether a predicate holds on the blackboard, and do nothing else. -/
structure Behavior.Checks (B : Behavior ο σ ω) (s : σ) (p : Blackboard → Bool) : Prop where
  start : ∀ b w, B.start s b w = ⟨s, b.entries, w⟩
  run : ∀ b w, B.run s b w = (.ofBool (p b), ⟨s, b.entries, w⟩)
  stop : ∀ b w, B.stop s b w = ⟨s, b.entries, w⟩
  evaluate : ∀ b w, B.evaluate s b w = (.ofBool (p b), w)

/-- A condition that reads without errors is one. -/
theorem Leaf.checks_condition (p : Blackboard → Bool) :
    Leaf.behavior.Checks (.condition fun b ↦ .ok (p b)) p where
  start _ _ := rfl
  run _ _ := rfl
  stop _ _ := rfl
  evaluate _ _ := rfl

/-- A leaf, as its author gives it, with the predicate that it answers. -/
structure Condition (σ : Type) where
  tag : Tag
  leaf : σ
  holds : Blackboard → Bool

namespace Condition

/-- The leaf of the condition, never run. -/
def node (c : Condition σ) : Node σ := .newLeaf c.tag c.leaf

/-- Whether a node is the leaf of the condition with no activation open. -/
def Idle (c : Condition σ) (n : Node σ) : Prop := ∃ state, n = .leaf c.tag ⟨state, false⟩ c.leaf

private theorem idle_node (c : Condition σ) : c.Idle c.node := ⟨.notStarted, rfl⟩

/-- Whether all of several conditions give an answer. -/
def allGive (answer : Bool) (conditions : List (Condition σ)) (b : Blackboard) : Bool :=
  conditions.all fun c ↦ c.holds b == answer

/-- Whether nodes are the leaves of conditions, in order. -/
abbrev IdleAll : List (Condition σ) → List (Node σ) → Prop := List.Forall₂ Idle

/-- The nodes made of conditions are their leaves. -/
theorem idleAll_node (conditions : List (Condition σ)) :
    IdleAll conditions (conditions.map node) := by
  induction conditions with
  | nil => exact .nil
  | cons c rest ih => exact .cons c.idle_node ih

end Condition

private theorem Status.ofBool_inj {a b : Bool} : Status.ofBool a = .ofBool b ↔ a = b := by
  cases a <;> cases b <;> decide

/-- A condition that answers never stays suspended. -/
theorem Status.ofBool_ne_running (b : Bool) : Status.ofBool b ≠ .running := by
  cases b <;> decide

namespace Node

open Condition

variable {B : Behavior ο σ ω}

/-- A run of a condition answers and leaves the surroundings as they are. -/
theorem run_idle {c : Condition σ} (hc : B.Checks c.leaf c.holds) {n : Node σ} (hn : c.Idle n)
    (env : Env ω) :
    let s := n.run B env
    s.status = .ofBool (c.holds env.board) ∧ c.Idle s.node ∧ s.env = env := by
  obtain ⟨state, rfl⟩ := hn
  have hrun : (leaf c.tag ⟨state, false⟩ c.leaf).run B env =
      settle B ⟨.ofBool (c.holds env.board), leaf c.tag ⟨state, true⟩ c.leaf, env⟩ := by
    have hbegin : (leaf c.tag ⟨state, false⟩ c.leaf).begin B env =
        (leaf c.tag ⟨state, true⟩ c.leaf, env) := by
      simp only [begin, started, life, hc.start]
      rfl
    simp only [run_eq, advance, hbegin, work, hc.run]
    rfl
  have hstop : (leaf c.tag ⟨state, true⟩ c.leaf).stop B env =
      (leaf c.tag ⟨state, true⟩ c.leaf, env) := by
    simp only [stop, hc.stop]
    rfl
  rw [settle_of_ne_running (Status.ofBool_ne_running _), hstop] at hrun
  rw [hrun]
  exact ⟨rfl, ⟨_, rfl⟩, rfl⟩

/-- How a run over conditions and one more child comes out, if the child is left as by a step. -/
structure Reaches (conditions : List (Condition σ)) (r : Scan σ ω) (s : Step σ ω) : Prop where
  status : r.status = s.status
  children : ∃ gs, IdleAll conditions gs ∧ r.children = gs ++ [s.node]
  env : r.env = s.env
  /-- Only the child can suspend. -/
  passed : r.status = .running → r.passed = conditions.length

/-- How a run over conditions and one more child comes out: the child is run if the conditions all
give the answer that passes. -/
def pastConditions (B : Behavior ο σ ω) (answer : Bool) (conditions : List (Condition σ))
    (w : Node σ) (env : Env ω) : Step σ ω :=
  if allGive answer conditions env.board then w.run B env else ⟨.ofBool !answer, w, env⟩

variable {conditions : List (Condition σ)} (hchecks : ∀ c ∈ conditions, B.Checks c.leaf c.holds)
  {gs : List (Node σ)} (hgs : IdleAll conditions gs) (answer : Bool) (w : Node σ)

include hchecks hgs

private theorem reaches_scan (env : Env ω) :
    Reaches conditions (scan (run B) (.ofBool answer) (gs ++ [w]) env)
      (pastConditions B answer conditions w env) := by
  induction hgs with
  | nil =>
    by_cases hs : (w.run B env).status = .ofBool answer
    · rw [List.nil_append, scan_cons_of_pass hs]
      exact ⟨hs.symm, ⟨[], .nil, rfl⟩, rfl, fun hr ↦ absurd hr (Status.ofBool_ne_running _)⟩
    · rw [List.nil_append, scan_cons_of_ne hs]
      exact ⟨rfl, ⟨[], .nil, rfl⟩, rfl, fun _ ↦ rfl⟩
  | @cons c n conditions gs hn hgs ih =>
    obtain ⟨hc, hrest⟩ := List.forall_mem_cons.mp hchecks
    obtain ⟨hstatus, hidle, henv⟩ := run_idle hc hn env
    have ih := ih hrest
    rw [List.cons_append]
    by_cases hs : c.holds env.board = answer
    · have hpast : pastConditions B answer (c :: conditions) w env =
          pastConditions B answer conditions w env := by
        simp [pastConditions, allGive, hs]
      rw [scan_cons_of_pass (hstatus.trans (Status.ofBool_inj.mpr hs)), henv, hpast]
      obtain ⟨gs', hgs', hchildren⟩ := ih.children
      exact ⟨ih.status, ⟨_ :: gs', .cons hidle hgs', congrArg (_ :: ·) hchildren⟩, ih.env,
        fun hr ↦ congrArg (· + 1) (ih.passed hr)⟩
    · have hpast : pastConditions B answer (c :: conditions) w env = ⟨.ofBool !answer, w, env⟩ := by
        simp [pastConditions, allGive, hs]
      rw [scan_cons_of_ne fun h ↦ hs (Status.ofBool_inj.mp (hstatus.symm.trans h)), hpast, henv,
        hstatus]
      refine ⟨Status.ofBool_inj.mpr (Bool.eq_not.mpr hs), ⟨_ :: gs, .cons hidle hgs, rfl⟩, rfl,
        fun hr ↦ absurd hr (Status.ofBool_ne_running _)⟩

/-- A scan from a condition on, with one more child behind them all, comes out as that child does
past the conditions. -/
theorem reaches_scanFrom {index : Nat} (hi : index ≤ conditions.length) (env : Env ω) :
    Reaches conditions (scanFrom (run B) (.ofBool answer) index (gs ++ [w]) env)
      (pastConditions B answer (conditions.drop index) w env) := by
  have hlength := hgs.length_eq
  have h := reaches_scan (fun c hc ↦ hchecks c (List.mem_of_mem_drop hc))
    (List.forall₂_drop index hgs) answer w env
  obtain ⟨gs', hgs', hchildren⟩ := h.children
  have hdrop : (gs ++ [w]).drop index = gs.drop index ++ [w] :=
    List.drop_append_of_le_length (by omega)
  have htake : (gs ++ [w]).take index = gs.take index :=
    List.take_append_of_le_length (by omega)
  have hall : IdleAll (conditions.take index ++ conditions.drop index) (gs.take index ++ gs') :=
    List.rel_append (List.forall₂_take index hgs) hgs'
  rw [List.take_append_drop] at hall
  rw [← hdrop] at h hchildren
  refine ⟨h.status, ⟨_, hall, ?_⟩, h.env, fun hr ↦ ?_⟩
  · simp only [scanFrom, htake, hchildren, List.append_assoc]
  · simp only [scanFrom, h.passed hr, List.length_drop]
    omega

omit w

/-- A probe of conditions that have the flag finds the first that does not give the answer. -/
theorem probe_conditions {flag : Flags → Bool} (hflags : ∀ c ∈ conditions, flag c.tag.flags = true)
    (b : Blackboard) (world : ω) :
    probe B flag (.ofBool !answer) gs b world =
      (conditions.findIdx? fun c ↦ c.holds b != answer, world) := by
  induction hgs with
  | nil => rfl
  | @cons c n conditions gs hn hgs ih =>
    obtain ⟨hc, hrest⟩ := List.forall_mem_cons.mp hchecks
    obtain ⟨hflag, hflags⟩ := List.forall_mem_cons.mp hflags
    obtain ⟨state, rfl⟩ := hn
    have ih := ih hrest hflags
    by_cases hs : c.holds b = answer
    · have hne : Status.ofBool answer ≠ .ofBool !answer := by
        cases answer <;> decide
      simp [probe, Node.flags, Node.tag, hflag, evaluate, hc.evaluate, hs, hne, ih,
        List.findIdx?_cons]
    · have heq : c.holds b = !answer := Bool.eq_not.mpr hs
      simp [probe, Node.flags, Node.tag, hflag, evaluate, hc.evaluate, heq, List.findIdx?_cons]

/-- Before the child, all conditions are probed. -/
theorem probeBefore_conditions {flag : Flags → Bool}
    (hflags : ∀ c ∈ conditions, flag c.tag.flags = true) (w : Node σ) (env : Env ω) :
    probeBefore B flag (.ofBool !answer) conditions.length (gs ++ [w]) env =
      (conditions.findIdx? fun c ↦ c.holds env.board != answer, env) := by
  have htake : (gs ++ [w]).take (min conditions.length (gs ++ [w]).length) = gs := by
    rw [hgs.length_eq, List.length_append, Nat.min_eq_left (Nat.le_add_right ..), List.take_left]
  simp only [probeBefore, htake, probe_conditions hchecks hgs answer hflags]

end Node

end BehaviorTree
