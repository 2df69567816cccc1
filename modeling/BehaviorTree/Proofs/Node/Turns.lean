import BehaviorTree.Proofs.Node.Deeds
import Mathlib.Logic.Function.Basic

/-!
# Deeds in turn

A log of deeds tells of each child whether an activation of it is open, once it is known which were
open before. The deeds of a composite keep to that: a child that is run opens an activation exactly
if none is open, and only an open one is aborted (`Doing.inTurn`).
-/

namespace BehaviorTree

variable {ο σ ω : Type}

namespace Deed

/-- Whether an activation of the child is open afterwards. -/
def leavesOpen : Deed → Bool
  | run _ _ answer => answer.isRunning
  | abort _ => false

/-- Whether the deed goes with an activation of the child that is open, or with none. -/
def Fits (isOpen : Bool) : Deed → Prop
  | run _ opens _ => opens = !isOpen
  | abort _ => isOpen = true

end Deed

/-- Of which children an activation is open after some deeds, given of which one was open before. -/
def openAfter (before : Nat → Bool) : List Deed → Nat → Bool
  | [] => before
  | d :: rest => openAfter (Function.update before d.index d.leavesOpen) rest

/-- Whether deeds go with the activations that are open, each after those before it. -/
def InTurn (before : Nat → Bool) : List Deed → Prop
  | [] => True
  | d :: rest =>
    d.Fits (before d.index) ∧ InTurn (Function.update before d.index d.leavesOpen) rest

/-- What is open after two logs is what the second leaves open after the first. -/
theorem openAfter_append (before : Nat → Bool) (log deeds : List Deed) :
    openAfter before (log ++ deeds) = openAfter (openAfter before log) deeds := by
  induction log generalizing before with
  | nil => rfl
  | cons d rest ih => exact ih _

/-- Logs of which the second is in turn after the first are in turn together. -/
theorem InTurn.append {before : Nat → Bool} {log deeds : List Deed} (h : InTurn before log)
    (h' : InTurn (openAfter before log) deeds) : InTurn before (log ++ deeds) := by
  induction log generalizing before with
  | nil => exact h'
  | cons d rest ih => exact ⟨h.1, ih h.2 h'⟩

/-- Whether some of the deeds closes the activation of the child at an index. -/
def Closes (k : Nat) (deeds : List Deed) : Prop :=
  ∃ d ∈ deeds, d.index = k ∧ d.leavesOpen = false

/-- An activation that was open and no longer is was closed by one of the deeds. -/
theorem closes_of_open {before : Nat → Bool} {deeds : List Deed} {k : Nat} (hb : before k = true)
    (ha : openAfter before deeds k = false) : Closes k deeds := by
  induction deeds generalizing before with
  | nil => exact absurd (hb.symm.trans ha) (by simp)
  | cons d rest ih =>
    by_cases hd : d.index = k ∧ d.leavesOpen = false
    · exact ⟨d, List.mem_cons_self, hd⟩
    · have hstill : Function.update before d.index d.leavesOpen k = true := by
        by_cases hk : d.index = k
        · subst hk
          rw [Function.update_self]
          by_contra hopen
          exact hd ⟨rfl, by simpa using hopen⟩
        · rwa [Function.update_of_ne (Ne.symm hk)]
      obtain ⟨e, he, hclose⟩ := ih hstill ha
      exact ⟨e, List.mem_cons_of_mem _ he, hclose⟩

/-- After a stretch at most the activation is open that its last run left open, if none was open
before but perhaps the one at which it begins. -/
theorem Node.Stretch.open_only {pass answer : Status} (hpass : pass ≠ .running)
    {size index last : Nat} {resumed : Bool} {deeds : List Deed}
    (h : Stretch pass size resumed index deeds answer last) {before : Nat → Bool}
    (hb : ∀ i, before i = true → i = index ∧ i < size) {i : Nat}
    (hi : openAfter before deeds i = true) : answer = .running ∧ i = last := by
  induction h generalizing before with
  | done =>
    obtain ⟨rfl, hlt⟩ := hb i hi
    exact absurd hlt (Nat.lt_irrefl _)
  | @halt resumed index _ answer _ =>
    by_cases hindex : i = index
    · subst hindex
      rw [openAfter, openAfter, Deed.index, Function.update_self] at hi
      exact ⟨Status.isRunning_iff.mp hi, rfl⟩
    · rw [openAfter, openAfter, Deed.index, Function.update_of_ne hindex] at hi
      exact absurd (hb i hi).1 hindex
  | @pass resumed index _ _ _ _ _ ih =>
    have hi : openAfter (Function.update before index pass.isRunning) _ i = true := hi
    refine ih (fun j hj ↦ ?_) hi
    by_cases hindex : j = index
    · subst hindex
      rw [Function.update_self, Status.isRunning_eq_false hpass] at hj
      cases hj
    · rw [Function.update_of_ne hindex] at hj
      exact absurd (hb j hj).1 hindex

namespace Node

/-- Whether there is a child at an index of which an activation is open. -/
def openAt (ns : List (Node σ)) (index : Nat) : Bool := ns[index]?.any started

variable {B : Behavior ο σ ω} {ns ns' ns'' : List (Node σ)} {env env' env'' : Env ω}
  {deeds deeds' : List Deed}

/-- An activation is open at an index exactly when the child there is started. -/
theorem openAt_of_getElem? {index : Nat} {c : Node σ} (hc : ns[index]? = some c) :
    openAt ns index = c.started := by
  rw [openAt, hc, Option.any_some]

private theorem openAt_set {index : Nat} {c : Node σ} (hc : ns[index]? = some c) (d : Node σ) :
    openAt (ns.set index d) = Function.update (openAt ns) index d.started := by
  funext i
  have hlt : index < ns.length := (List.getElem?_eq_some_iff.mp hc).1
  by_cases hi : i = index
  · subst hi
    rw [Function.update_self, openAt, List.getElem?_set_self hlt, Option.any_some]
  · rw [Function.update_of_ne hi, openAt, List.getElem?_set_ne (Ne.symm hi), openAt]

/-- Deeds after others. -/
theorem Doing.append (h : Doing B deeds ns env ns' env') (h' : Doing B deeds' ns' env' ns'' env'') :
    Doing B (deeds ++ deeds') ns env ns'' env'' := by
  induction h with
  | done => exact h'
  | run hc _ ih => exact .run hc (ih h')
  | abort hc hs _ ih => exact .abort hc hs (ih h')

/-- Deeds leave the number of children. -/
theorem Doing.length_eq (h : Doing B deeds ns env ns' env') : ns'.length = ns.length := by
  induction h with
  | done => rfl
  | run _ _ ih => rw [ih, List.length_set]
  | abort _ _ _ ih => rw [ih, List.length_set]

/-- Afterwards those activations are open that the deeds left open. -/
theorem Doing.openAt_eq (h : Doing B deeds ns env ns' env') :
    openAt ns' = openAfter (openAt ns) deeds := by
  induction h with
  | done => rfl
  | run hc _ ih =>
    rw [ih, openAt_set hc, started_run]
    rfl
  | abort hc _ _ ih =>
    rw [ih, openAt_set hc, started_abort]
    rfl

/-- Deeds are done in turn. -/
theorem Doing.inTurn (h : Doing B deeds ns env ns' env') : InTurn (openAt ns) deeds := by
  induction h with
  | done => trivial
  | run hc _ ih =>
    rw [openAt_set hc, started_run] at ih
    exact ⟨congrArg Bool.not (openAt_of_getElem? hc).symm, ih⟩
  | abort hc hs _ ih =>
    rw [openAt_set hc, started_abort] at ih
    exact ⟨(openAt_of_getElem? hc).trans hs, ih⟩

end Node

end BehaviorTree
