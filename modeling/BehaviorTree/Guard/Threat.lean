/-!
# The threat schedule

Sightings come and go in windows of forty-five ticks. Whether an agent sees a threat in a window
is drawn by mixing the seed, the agent and the window into one word.
-/

namespace BehaviorTree

namespace Threat

/-- Scrambles a word: an odd step, then two rounds of shift, exclusive or and odd multiplication,
and a last shift. -/
def mix (word : UInt64) : UInt64 :=
  let x := word + 0x9E3779B97F4A7C15
  let x := (x ^^^ (x >>> 30)) * 0xBF58476D1CE4E5B9
  let x := (x ^^^ (x >>> 27)) * 0x94D049BB133111EB
  x ^^^ (x >>> 31)

/-- The number of ticks in a window. -/
def windowTicks : UInt64 := 45

/-- Exchanges the halves of a word. -/
def swapHalves (word : UInt64) : UInt64 := word <<< 32 ||| word >>> 32

/-- The word that is mixed for an agent in the window of a tick. -/
def word (seed agent tick : UInt64) : UInt64 :=
  seed ^^^ swapHalves agent ^^^ (tick / windowTicks * 0x9E3779B9)

/-- The word drawn for an agent in the window of a tick. -/
def draw (seed agent tick : UInt64) : UInt64 := mix (word seed agent tick)

/-- Whether the agent sees a threat on a tick: one draw in five. -/
def isSeen (seed agent tick : UInt64) : Bool := draw seed agent tick % 5 == 0

end Threat

end BehaviorTree
