import BehaviorTree.Decimal.Text
import BehaviorTree.Runner.Schedule

/-!
# Simulation settings

What a simulation is run with, the defaults, and the two conditions that a configuration has to
meet.
-/

namespace BehaviorTree

namespace Simulation

/-- The settings of a simulation. -/
structure Config where
  /-- How many guards are spawned. -/
  agents : UInt64
  /-- How many ticks are simulated. -/
  ticks : UInt64
  /-- The step published to every tree. -/
  step : Float32
  /-- The seed of the threat schedule. -/
  seed : UInt64
  /-- How long a guard lingers at each waypoint. -/
  linger : Float32
  /-- How many free nodes the pool keeps for each node of the prototype. -/
  maxFree : UInt64
  /-- When agents think. -/
  schedule : Schedule
  deriving DecidableEq

/-- Why a configuration is refused. -/
inductive ConfigError where
  | stepNotPositive (step : Float32)
  | lingerNegative (linger : Float32)
  deriving DecidableEq

/-- The error in words. -/
def ConfigError.message : ConfigError → String
  | .stepNotPositive step =>
    "dt_seconds must be positive, got " ++ FloatStyle.message.text step
  | .lingerNegative linger =>
    "linger_seconds must not be negative, got " ++ FloatStyle.message.text linger

namespace Config

/-- The settings that hold where nothing else is said. -/
def standard : Config where
  agents := 64
  ticks := 600
  step := 1 / 30
  seed := 0
  linger := 1
  maxFree := 64
  schedule := .always

/-- The step has to be finite and positive, the lingering time not negative; the step is looked at
first. -/
def validate (c : Config) : Except ConfigError Unit :=
  if ¬ (c.step.isFinite ∧ 0 < c.step) then .error (.stepNotPositive c.step)
  else if ¬ (0 ≤ c.linger) then .error (.lingerNegative c.linger)
  else .ok ()

end Config

end Simulation

end BehaviorTree
