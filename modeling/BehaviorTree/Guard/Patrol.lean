import BehaviorTree.Behavior
import BehaviorTree.Blackboard.Access
import BehaviorTree.Clock
import BehaviorTree.Guard.Basic

/-!
# Patrolling

A patrolling leaf walks its guard's route from waypoint to waypoint and succeeds on each arrival.
It keeps its place between activations, and leaves its heading on the blackboard.
-/

namespace BehaviorTree

/-- A leaf that walks a route. -/
structure Patrol where
  route : List Vec3
  speed : Float32
  /-- The index of the waypoint it walks to. -/
  leg : Nat
  position : Vec3
  /-- The distance walked so far. -/
  walked : Float32

namespace Patrol

/-- The key under which the heading is left. -/
def headingKey : String := "guard.heading"

/-- A patrol that has not been bound to a guard. -/
def unbound : Patrol := ⟨[], 0, 0, .zero, 0⟩

/-- Binds the leaf to a guard: it begins at the first waypoint and walks to the second. -/
def awake (p : Patrol) (guard : Option Guard) : Except AwakeError Patrol :=
  match guard with
  | none => .error (.ownerType "Guard")
  | some g =>
    match g.route with
    | [] => .error (.missingBinding ("route of guard " ++ toString g.id.toNat))
    | first :: _ =>
      .ok { p with
        route := g.route, speed := g.speed, position := first, leg := 1 % g.route.length }

/-- Walks for one tick: up to the waypoint if it is within reach, else a step towards it. -/
def run (p : Patrol) (b : Blackboard) : Except AccessError (Status × Patrol × Blackboard) :=
  match p.route[p.leg]? with
  | none => .ok (.failure, p, b)
  | some target =>
    (b.getFloat Clock.deltaKey 0).map fun seconds =>
      let step := p.speed * seconds
      let way := target - p.position
      let distance := way.length
      if distance ≤ step then
        (.success,
          { p with
            position := target
            walked := p.walked + distance
            leg := (p.leg + 1) % p.route.length },
          b.setVector headingKey .zero)
      else
        let heading := way.shrink distance
        (.running,
          { p with position := p.position + heading.scale step, walked := p.walked + step },
          b.setVector headingKey heading)

end Patrol

end BehaviorTree
