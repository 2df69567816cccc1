/-!
# Think schedules

An agent thinks on the ticks that, shifted by its offset, are multiples of its interval. A
staggered schedule takes the offset from the agent's id, so that agents spread over the ticks.
-/

namespace BehaviorTree

/-- How often an agent thinks, and on which of the ticks; an interval of zero counts as one. -/
structure Schedule where
  every : UInt32
  offset : UInt32
  stagger : Bool
  deriving DecidableEq, Repr

namespace Schedule

/-- Every tick. -/
def always : Schedule := ⟨1, 0, false⟩

/-- The interval in use. -/
def interval (s : Schedule) : Nat := max s.every.toNat 1

/-- The schedule of one agent among agents that share an interval: the id sets the offset. -/
def staggered (agent : UInt64) (every : UInt32) : Schedule :=
  let interval := if every = 0 then 1 else every
  ⟨interval, UInt32.ofNat (agent.toNat % interval.toNat), true⟩

/-- A tick shifted by the offset; past the last word the sum starts again from zero. -/
def shifted (s : Schedule) (tick : UInt64) : UInt64 := tick + s.offset.toUInt64

/-- Whether the agent thinks on a tick. -/
def isDue (s : Schedule) (tick : UInt64) : Bool := (s.shifted tick).toNat % s.interval == 0

/-- Whether a tick shifted by the offset still fits in a word. -/
def Fits (s : Schedule) (tick : UInt64) : Prop := tick.toNat + s.offset.toNat < UInt64.size

instance (s : Schedule) : DecidablePred s.Fits := fun tick ↦
  inferInstanceAs (Decidable (tick.toNat + s.offset.toNat < UInt64.size))

/-- The schedule that an agent gets from a shared one. -/
def forAgent (s : Schedule) (agent : UInt64) : Schedule :=
  if s.stagger then staggered agent s.every else s

/-- An interval is never empty. -/
theorem interval_pos (s : Schedule) : 0 < s.interval := by
  unfold interval; omega

variable {s : Schedule} {tick : UInt64}

/-- Shifting a tick that fits adds the offset to it. -/
theorem Fits.toNat_shifted (h : s.Fits tick) :
    (s.shifted tick).toNat = tick.toNat + s.offset.toNat := by
  rw [shifted, UInt64.toNat_add, UInt32.toNat_toUInt64]
  exact Nat.mod_eq_of_lt h

/-- What fits on a tick fits on those before. -/
theorem Fits.of_le {earlier : UInt64} (h : s.Fits tick) (hle : earlier.toNat ≤ tick.toNat) :
    s.Fits earlier :=
  Nat.lt_of_le_of_lt (Nat.add_le_add_right hle _) h

/-- An agent thinks on the ticks that fit and that the offset brings to a multiple of the
interval. -/
theorem Fits.isDue_iff (h : s.Fits tick) :
    s.isDue tick = true ↔ (tick.toNat + s.offset.toNat) % s.interval = 0 := by
  rw [isDue, beq_iff_eq, h.toNat_shifted]

end Schedule

end BehaviorTree
