import BehaviorTree.Decimal.Fixed
import BehaviorTree.Simulation.Run

/-!
# Report texts

A report is printed for reading or as a JSON document.
-/

namespace BehaviorTree

namespace Simulation

namespace Report

/-- The report for reading; the distance is given with one place. -/
def text (r : Report) : String :=
  "Simulated " ++ toString r.agents.toNat ++ " agents for " ++ toString r.ticks.toNat ++ " ticks" ++
  "\n\nTicks:" ++
  "\n  ticked:   " ++ toString r.totals.ticked ++
  "\n  skipped:  " ++ toString r.totals.skipped ++
  "\n  running:  " ++ toString r.totals.running ++
  "\n  success:  " ++ toString r.totals.success ++
  "\n  failure:  " ++ toString r.totals.failure ++
  "\n\nNode pool:" ++
  "\n  hits:     " ++ toString r.pool.hits ++
  "\n  misses:   " ++ toString r.pool.misses ++
  "\n  released: " ++ toString r.pool.released ++
  "\n  dropped:  " ++ toString r.pool.dropped ++
  "\n\nShots fired:     " ++ toString r.shots.toInt ++
  "\nDistance walked: " ++ Decimal.fixedText 1 r.distance ++ "\n"

/-- An object of a JSON document with its fields on lines of their own. -/
def jsonObject (indent : String) (fields : List (String × String)) : String :=
  "\x7b\n" ++
  ",\n".intercalate (fields.map fun f => indent ++ "  \"" ++ f.1 ++ "\": " ++ f.2) ++
  "\n" ++ indent ++ "\x7d"

/-- The report as a JSON document. -/
def json (r : Report) : String :=
  jsonObject "" [
    ("agents", toString r.agents.toNat),
    ("ticks", toString r.ticks.toNat),
    ("totals", jsonObject "  " [
      ("ticked", toString r.totals.ticked),
      ("skipped", toString r.totals.skipped),
      ("running", toString r.totals.running),
      ("success", toString r.totals.success),
      ("failure", toString r.totals.failure)]),
    ("pool", jsonObject "  " [
      ("hits", toString r.pool.hits),
      ("misses", toString r.pool.misses),
      ("released", toString r.pool.released),
      ("dropped", toString r.pool.dropped)]),
    ("shots", toString r.shots.toInt),
    ("distance_walked", FloatStyle.report.text r.distance)] ++ "\n"

end Report

end Simulation

end BehaviorTree
