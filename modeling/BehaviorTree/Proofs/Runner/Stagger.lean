import BehaviorTree.Runner.Schedule
import Mathlib.Algebra.Order.Floor.Div
import Mathlib.Data.Int.CardIntervalMod

/-!
# Fairness of think schedules

Whatever its offset, a schedule is due once in each interval of ticks. Staggered by their ids,
agents with consecutive ids are due one after the other, so that each tick serves an even share of
them. Without staggering all agents are due on the same ticks. All this holds as long as the ticks
fit in a word when they are shifted; at the very end of the words the shares are not even.
-/

namespace BehaviorTree

/-- Values in a row, from the first on. -/
def stretch (first : UInt64) (count : Nat) : List UInt64 :=
  (List.range count).map fun k ↦ first + UInt64.ofNat k

private theorem toNat_add_ofNat {first : UInt64} {k : Nat} (h : first.toNat + k < 2 ^ 64) :
    (first + UInt64.ofNat k).toNat = first.toNat + k := by
  rw [UInt64.toNat_add, UInt64.toNat_ofNat', Nat.mod_eq_of_lt (show k < 2 ^ 64 by omega),
    Nat.mod_eq_of_lt h]

private theorem mem_stretch {first : UInt64} {count : Nat} (h : first.toNat + count ≤ 2 ^ 64)
    {x : UInt64} :
    x ∈ stretch first count ↔ first.toNat ≤ x.toNat ∧ x.toNat < first.toNat + count := by
  simp only [stretch, List.mem_map, List.mem_range]
  constructor
  · rintro ⟨k, hk, rfl⟩
    rw [toNat_add_ofNat (by omega)]
    omega
  · rintro ⟨hlow, hhigh⟩
    refine ⟨x.toNat - first.toNat, by omega, UInt64.toNat_inj.mp ?_⟩
    rw [toNat_add_ofNat (by omega)]
    omega

/-- The one number below a divisor that brings a given sum to a multiple. -/
theorem add_mod_eq_zero_iff {e : Nat} (sum : Nat) {k : Nat} (hk : k < e) :
    (k + sum) % e = 0 ↔ k = (e - sum % e) % e := by
  have hlt := Nat.mod_lt sum (Nat.zero_lt_of_lt hk)
  rw [Nat.add_mod, Nat.mod_eq_of_lt hk]
  generalize sum % e = r at hlt ⊢
  rcases Nat.eq_zero_or_pos r with rfl | hr
  · rw [Nat.add_zero, Nat.mod_eq_of_lt hk, Nat.sub_zero, Nat.mod_self]
  · rw [Nat.mod_eq_of_lt (show e - r < e by omega)]
    rcases Nat.lt_or_ge (k + r) e with hshort | hlong
    · rw [Nat.mod_eq_of_lt hshort]
      omega
    · rw [Nat.mod_eq_sub_mod hlong, Nat.mod_eq_of_lt (show k + r - e < e by omega)]
      omega

/-- Of as many values in a row as a divisor says, exactly one brings a given sum to a multiple. -/
theorem exists_mem_stretch_iff {e : Nat} (he : 0 < e) (sum : Nat) {first : UInt64}
    (h : first.toNat + e ≤ 2 ^ 64) :
    ∃ x ∈ stretch first e, ∀ y ∈ stretch first e, ((y.toNat + sum) % e = 0 ↔ y = x) := by
  have hlt := Nat.mod_lt (e - (first.toNat + sum) % e) he
  have hnat := toNat_add_ofNat
    (show first.toNat + (e - (first.toNat + sum) % e) % e < 2 ^ 64 by omega)
  refine ⟨_, (mem_stretch h).mpr (by rw [hnat]; omega), fun y hy ↦ ?_⟩
  obtain ⟨hlow, hhigh⟩ := (mem_stretch h).mp hy
  obtain ⟨k, hk⟩ := Nat.exists_eq_add_of_le hlow
  rw [← UInt64.toNat_inj, hnat, hk, Nat.add_left_cancel_iff,
    show first.toNat + k + sum = k + (first.toNat + sum) by omega,
    add_mod_eq_zero_iff _ (show k < e by omega)]

/-- Among numbers in a row, those that bring a given sum to a multiple of a divisor are an even
share of them, rounded down or up. -/
theorem count_add_mod_eq_zero {e : Nat} (he : 0 < e) (sum count : Nat) :
    Nat.count (fun k ↦ (k + sum) % e = 0) count = count / e ∨
      Nat.count (fun k ↦ (k + sum) % e = 0) count = count ⌈/⌉ e := by
  let v := (e - sum % e) % e
  have hv : v < e := Nat.mod_lt _ he
  have hiff : ∀ k, (k + sum) % e = 0 ↔ k ≡ v [MOD e] := by
    intro k
    rw [Nat.ModEq, Nat.mod_eq_of_lt hv, ← add_mod_eq_zero_iff sum (Nat.mod_lt k he),
      Nat.mod_add_mod]
  have hcount : Nat.count (fun k ↦ (k + sum) % e = 0) count =
      count / e + if v < count % e then 1 else 0 := by
    simp only [hiff, Nat.count_modEq_card count he, Nat.mod_eq_of_lt hv]
  rw [hcount]
  split_ifs with hround
  · right
    have hlt := Nat.mod_lt count he
    have hdiv := Nat.div_add_mod count e
    generalize count / e = q at hdiv ⊢
    rw [Nat.ceilDiv_eq_add_pred_div,
      show count + e - 1 = e * (q + 1) + (count % e - 1) by rw [Nat.mul_add]; omega,
      Nat.mul_add_div he, Nat.div_eq_of_lt (show count % e - 1 < e by omega)]
  · exact Or.inl rfl

namespace Schedule

private theorem interval_staggered (agent : UInt64) (every : UInt32) :
    (staggered agent every).interval = max every.toNat 1 := by
  by_cases h : every = 0
  · subst h
    rfl
  · simp [staggered, interval, h]

/-- A staggered agent is due when its id and the tick add up to a multiple of the interval. -/
theorem isDue_staggered {agent : UInt64} {every : UInt32} {tick : UInt64}
    (h : (staggered agent every).Fits tick) :
    (staggered agent every).isDue tick = true ↔
      (tick.toNat + agent.toNat) % max every.toNat 1 = 0 := by
  have hoffset : (staggered agent every).offset.toNat = agent.toNat % max every.toNat 1 := by
    have hevery : (if every = 0 then 1 else every).toNat = max every.toNat 1 := by
      by_cases hzero : every = 0
      · subst hzero
        rfl
      · have hne : every.toNat ≠ 0 := fun h0 ↦ hzero (UInt32.toNat_inj.mp h0)
        rw [if_neg hzero]
        omega
    have hlt := Nat.mod_lt agent.toNat (show 0 < max every.toNat 1 by omega)
    have hbound := every.toNat_lt
    simp only [staggered, UInt32.toNat_ofNat', hevery]
    exact Nat.mod_eq_of_lt (by omega)
  rw [h.isDue_iff, interval_staggered, hoffset, Nat.add_mod_mod]

/-- Whatever its offset, a schedule is due on one tick of an interval. -/
theorem exists_isDue_iff (s : Schedule) {first : UInt64} (h : first.toNat + s.interval ≤ 2 ^ 64)
    (hfits : ∀ tick ∈ stretch first s.interval, s.Fits tick) :
    ∃ due ∈ stretch first s.interval, ∀ tick ∈ stretch first s.interval,
      (s.isDue tick = true ↔ tick = due) := by
  obtain ⟨due, hdue, hiff⟩ := exists_mem_stretch_iff s.interval_pos s.offset.toNat h
  exact ⟨due, hdue, fun tick ht ↦ ((hfits tick ht).isDue_iff).trans (hiff tick ht)⟩

/-- Of as many agents in a row as their interval says, one is due on a tick. -/
theorem exists_isDue_staggered_iff (every : UInt32) {tick first : UInt64}
    (h : first.toNat + max every.toNat 1 ≤ 2 ^ 64)
    (hfits : ∀ agent ∈ stretch first (max every.toNat 1), (staggered agent every).Fits tick) :
    ∃ due ∈ stretch first (max every.toNat 1), ∀ agent ∈ stretch first (max every.toNat 1),
      ((staggered agent every).isDue tick = true ↔ agent = due) := by
  obtain ⟨due, hdue, hiff⟩ := exists_mem_stretch_iff (by omega) tick.toNat h
  refine ⟨due, hdue, fun agent ha ↦ ?_⟩
  rw [isDue_staggered (hfits agent ha), Nat.add_comm]
  exact hiff agent ha

/-- Of agents in a row, an even share is due on a tick. -/
theorem countP_isDue_staggered (every : UInt32) {tick first : UInt64} {count : Nat}
    (h : first.toNat + count ≤ 2 ^ 64)
    (hfits : ∀ agent ∈ stretch first count, (staggered agent every).Fits tick) :
    ((stretch first count).countP fun agent ↦ (staggered agent every).isDue tick) =
        count / max every.toNat 1 ∨
      ((stretch first count).countP fun agent ↦ (staggered agent every).isDue tick) =
        count ⌈/⌉ max every.toNat 1 := by
  have hcount : ((stretch first count).countP fun agent ↦ (staggered agent every).isDue tick) =
      Nat.count (fun k ↦ (k + (tick.toNat + first.toNat)) % max every.toNat 1 = 0) count := by
    rw [stretch, List.countP_map, Nat.count]
    refine List.countP_congr fun k hk ↦ ?_
    have hlt := List.mem_range.mp hk
    have hfit := hfits _ (List.mem_map_of_mem (f := fun k ↦ first + UInt64.ofNat k) hk)
    rw [Function.comp_apply, isDue_staggered hfit, toNat_add_ofNat (by omega), decide_eq_true_iff,
      show tick.toNat + (first.toNat + k) = k + (tick.toNat + first.toNat) by omega]
  rw [hcount]
  exact count_add_mod_eq_zero (by omega) _ _

/-- Think schedules are fair as long as the ticks fit in a word when they are shifted. An agent
staggered by its id is due on exactly one tick of any interval, and of any interval of consecutive
ids exactly one is due on a given tick, so that of consecutive ids an even share is due, rounded
down or up. Without staggering, whatever the offset, all agents are due together, on exactly one
tick of any interval. -/
theorem schedules_fair (every : UInt32) :
    (∀ agent first : UInt64, first.toNat + max every.toNat 1 ≤ 2 ^ 64 →
      (∀ tick ∈ stretch first (max every.toNat 1), (staggered agent every).Fits tick) →
      ∃! tick, tick ∈ stretch first (max every.toNat 1) ∧
        (staggered agent every).isDue tick = true) ∧
    (∀ tick first : UInt64, first.toNat + max every.toNat 1 ≤ 2 ^ 64 →
      (∀ agent ∈ stretch first (max every.toNat 1), (staggered agent every).Fits tick) →
      ∃! agent, agent ∈ stretch first (max every.toNat 1) ∧
        (staggered agent every).isDue tick = true) ∧
    (∀ (tick first : UInt64) (count : Nat), first.toNat + count ≤ 2 ^ 64 →
      (∀ agent ∈ stretch first count, (staggered agent every).Fits tick) →
      ((stretch first count).countP fun agent ↦ (staggered agent every).isDue tick) =
          count / max every.toNat 1 ∨
        ((stretch first count).countP fun agent ↦ (staggered agent every).isDue tick) =
          count ⌈/⌉ max every.toNat 1) ∧
    ∀ (offset : UInt32) (first : UInt64), first.toNat + max every.toNat 1 ≤ 2 ^ 64 →
      (∀ tick ∈ stretch first (max every.toNat 1), Fits ⟨every, offset, false⟩ tick) →
      ∃ due ∈ stretch first (max every.toNat 1), ∀ agent,
        ∀ tick ∈ stretch first (max every.toNat 1),
          ((forAgent ⟨every, offset, false⟩ agent).isDue tick = true ↔ tick = due) := by
  refine ⟨fun agent first h hfits ↦ ?_, fun tick first h hfits ↦ ?_,
    fun tick first count h hfits ↦ countP_isDue_staggered every h hfits,
    fun offset first h hfits ↦ ?_⟩
  · rw [← interval_staggered agent every] at h hfits ⊢
    obtain ⟨due, hdue, hiff⟩ := exists_isDue_iff (staggered agent every) h hfits
    exact ⟨due, ⟨hdue, (hiff due hdue).mpr rfl⟩, fun tick ht ↦ (hiff tick ht.1).mp ht.2⟩
  · obtain ⟨due, hdue, hiff⟩ := exists_isDue_staggered_iff every h hfits
    exact ⟨due, ⟨hdue, (hiff due hdue).mpr rfl⟩, fun agent ha ↦ (hiff agent ha.1).mp ha.2⟩
  · obtain ⟨due, hdue, hiff⟩ := exists_isDue_iff ⟨every, offset, false⟩ h hfits
    exact ⟨due, hdue, fun _ ↦ hiff⟩

/-- The agents with ids from three to twelve think every fourth tick: one of the ticks from a
hundred on is that of the agent seven, one of the first four agents thinks on the tick nine, and
two or three of all ten do. Without staggering they all think on the same tick. -/
theorem schedules_fair_four :
    (∃! tick, tick ∈ stretch 100 4 ∧ (staggered 7 4).isDue tick = true) ∧
    (∃! agent, agent ∈ stretch 3 4 ∧ (staggered agent 4).isDue 9 = true) ∧
    (((stretch 3 10).countP fun agent ↦ (staggered agent 4).isDue 9) = 2 ∨
      ((stretch 3 10).countP fun agent ↦ (staggered agent 4).isDue 9) = 3) ∧
    ∃ due ∈ stretch 100 4, ∀ agent, ∀ tick ∈ stretch 100 4,
      ((forAgent ⟨4, 3, false⟩ agent).isDue tick = true ↔ tick = due) :=
  ⟨(schedules_fair 4).1 7 100 (by decide) (List.forall_iff_forall_mem.mp (by decide)),
    (schedules_fair 4).2.1 9 3 (by decide) (List.forall_iff_forall_mem.mp (by decide)),
    (schedules_fair 4).2.2.1 9 3 10 (by decide) (List.forall_iff_forall_mem.mp (by decide)),
    (schedules_fair 4).2.2.2 3 100 (by decide) (List.forall_iff_forall_mem.mp (by decide))⟩

/-- On the last tick of all, two of three agents are due. -/
example :
    ((stretch 0 3).countP fun agent ↦ (staggered agent 3).isDue 0xFFFFFFFFFFFFFFFF) = 2 := by
  decide

end Schedule

end BehaviorTree
