import BehaviorTree.Runner.Basic
import Mathlib.Algebra.GroupWithZero.Nat
import Mathlib.Data.List.Chain

/-!
# Steps between thinks

A think counts the ticks since the last one, and the first think counts one. Over the thinks of an
agent these steps add up to the ticks that went by, and on consecutive ticks each of them but the
first is the interval of the schedule.
-/

namespace BehaviorTree

variable {ο σ : Type}

/-- The steps that a think counts, given the last one. -/
def stepsSince (last : Option UInt64) (tick : UInt64) : UInt64 :=
  match last with
  | none => 1
  | some last => tick - last

/-- The steps that each of several thinks counts, given the last one before them. -/
def stepsOf : Option UInt64 → List UInt64 → List UInt64
  | _, [] => []
  | last, tick :: rest => stepsSince last tick :: stepsOf (some tick) rest

/-- A think counts from the last of those before it. -/
theorem getElem?_stepsOf (last : Option UInt64) (before : List UInt64) (tick : UInt64)
    (after : List UInt64) :
    (stepsOf last (before ++ tick :: after))[before.length]? =
      some (stepsSince (before.getLast?.or last) tick) := by
  induction before generalizing last with
  | nil => rfl
  | cons t rest ih =>
    rw [List.getLast?_cons, List.cons_append, stepsOf, List.length_cons, List.getElem?_cons_succ,
      ih (some t)]
    cases rest.getLast? <;> rfl

private theorem toNat_stepsSince {last tick : UInt64} (h : last < tick) :
    (stepsSince (some last) tick).toNat = tick.toNat - last.toNat :=
  UInt64.toNat_sub_of_le _ _ (UInt64.le_of_lt h)

/-- If the last think was before, the time that an agent is told is that since then. -/
theorem Agent.elapsed_eq {a : Agent ο σ} {tick : UInt64} (h : ∀ last ∈ a.lastThink, last < tick) :
    a.elapsed tick = stepsSince a.lastThink tick := by
  unfold Agent.elapsed
  cases hl : a.lastThink with
  | none => rfl
  | some last =>
    have hlt := h last hl
    have hnat := UInt64.lt_iff_toNat_lt.mp hlt
    have hmax : max (tick.toNat - last.toNat) 1 = (stepsSince (some last) tick).toNat := by
      rw [toNat_stepsSince hlt]
      omega
    simp only [hmax, UInt64.ofNat_toNat]

private theorem sum_stepsOf_some {last : UInt64} {thinks : List UInt64}
    (h : (last :: thinks).Pairwise (· < ·)) :
    ((stepsOf (some last) thinks).map UInt64.toNat).sum + last.toNat =
      (thinks.getLastD last).toNat := by
  induction thinks generalizing last with
  | nil => exact Nat.zero_add _
  | cons tick rest ih =>
    obtain ⟨hlast, hrest⟩ := List.pairwise_cons.mp h
    have hlt := hlast tick List.mem_cons_self
    have hnat := UInt64.lt_iff_toNat_lt.mp hlt
    rw [List.getLastD_cons, ← ih hrest, stepsOf, List.map_cons, List.sum_cons, toNat_stepsSince hlt]
    omega

/-- The steps of all thinks add up to the ticks from the first to the last, both included. -/
theorem sum_stepsOf {thinks : List UInt64} (h : thinks.Pairwise (· < ·)) {first last : UInt64}
    (hf : thinks.head? = some first) (hl : thinks.getLast? = some last) :
    ((stepsOf none thinks).map UInt64.toNat).sum = last.toNat - first.toNat + 1 := by
  cases thinks with
  | nil => cases hf
  | cons tick rest =>
    obtain rfl : tick = first := Option.some.inj hf
    rw [List.getLast?_cons, Option.some.injEq] at hl
    have hrest := sum_stepsOf_some h
    rw [List.getLastD_eq_getLast?, hl] at hrest
    rw [stepsOf, List.map_cons, List.sum_cons]
    show 1 + _ = _
    omega

/-! ### Consecutive ticks -/

/-- Whether each of several ticks comes right after the one before. -/
def Consecutive (ticks : List UInt64) : Prop :=
  ticks.IsChain fun t t' ↦ t'.toNat = t.toNat + 1

private theorem Consecutive.next {tick : UInt64} {rest : List UInt64}
    (h : Consecutive (tick :: rest)) : ∀ t ∈ rest.head?, t.toNat = tick.toNat + 1 := by
  intro t ht
  cases rest with
  | nil => cases ht
  | cons u rest =>
    obtain rfl : u = t := Option.some.inj ht
    exact (List.isChain_cons_cons.mp h).1

namespace Schedule

variable {s : Schedule}

/-- Within an interval after a tick that is due, only the tick at its end is due. -/
theorem isDue_iff_of_isDue {last tick : UInt64} (hfits : s.Fits tick) (hl : s.isDue last = true)
    (hlt : last.toNat < tick.toNat) (hle : tick.toNat ≤ last.toNat + s.interval) :
    s.isDue tick = true ↔ tick.toNat = last.toNat + s.interval := by
  rw [(hfits.of_le (Nat.le_of_lt hlt)).isDue_iff] at hl
  rw [hfits.isDue_iff]
  obtain ⟨gap, hgap⟩ := Nat.exists_eq_add_of_lt hlt
  have hsum : tick.toNat + s.offset.toNat = last.toNat + s.offset.toNat + (gap + 1) := by omega
  rw [hsum, Nat.add_mod, hl, Nat.zero_add, Nat.mod_mod]
  rcases Nat.lt_or_eq_of_le (show gap + 1 ≤ s.interval by omega) with hshort | hfull
  · rw [Nat.mod_eq_of_lt hshort]
    omega
  · rw [hfull, Nat.mod_self]
    omega

/-- After a think, the thinks on consecutive ticks are an interval apart. -/
theorem stepsOf_some_of_consecutive {last : UInt64} (hl : s.isDue last = true) {ticks : List UInt64}
    (hfits : ∀ t ∈ ticks, s.Fits t) (hc : Consecutive ticks)
    (hnext : ∀ t ∈ ticks.head?, last.toNat < t.toNat ∧ t.toNat ≤ last.toNat + s.interval) :
    ∀ k ∈ stepsOf (some last) (ticks.filter s.isDue), k.toNat = s.interval := by
  induction ticks generalizing last with
  | nil => simp [stepsOf]
  | cons t rest ih =>
    obtain ⟨hlt, hle⟩ := hnext t rfl
    obtain ⟨hfit, hfits⟩ := List.forall_mem_cons.mp hfits
    have hrest : Consecutive rest := hc.tail
    have hsucc := hc.next
    have hdue := isDue_iff_of_isDue hfit hl hlt hle
    cases ht : s.isDue t with
    | true =>
      have heq := hdue.mp ht
      have hpos := s.interval_pos
      rw [List.filter_cons_of_pos ht, stepsOf]
      refine List.forall_mem_cons.mpr ⟨?_, ih ht hfits hrest fun t' ht' ↦ ?_⟩
      · rw [toNat_stepsSince (UInt64.lt_iff_toNat_lt.mpr hlt)]
        omega
      · have hnext := hsucc t' ht'
        omega
    | false =>
      rw [List.filter_cons_of_neg (by simp [ht])]
      refine ih hl hfits hrest fun t' ht' ↦ ?_
      have hnext := hsucc t' ht'
      have hne : t.toNat ≠ last.toNat + s.interval := fun heq ↦ by simp [hdue.mpr heq] at ht
      omega

/-- On consecutive ticks all thinks but the first count an interval. -/
theorem stepsOf_of_consecutive {ticks : List UInt64} (hc : Consecutive ticks)
    (hfits : ∀ t ∈ ticks, s.Fits t) :
    ∀ k ∈ (stepsOf none (ticks.filter s.isDue)).tail, k.toNat = s.interval := by
  induction ticks with
  | nil => simp [stepsOf]
  | cons t rest ih =>
    have hrest := (List.forall_mem_cons.mp hfits).2
    cases ht : s.isDue t with
    | true =>
      rw [List.filter_cons_of_pos ht, stepsOf, List.tail_cons]
      refine stepsOf_some_of_consecutive ht hrest hc.tail fun t' ht' ↦ ?_
      have hpos := s.interval_pos
      have hnext := hc.next t' ht'
      omega
    | false =>
      rw [List.filter_cons_of_neg (by simp [ht])]
      exact ih hc.tail hrest

end Schedule

end BehaviorTree
