import BehaviorTree.Vector

/-!
# Guards

A guard is the owner of a demonstration tree: it walks a square route in its own cell of a grid of
cells, sixteen to a row.
-/

namespace BehaviorTree

/-- An agent's host data. -/
structure Guard where
  id : UInt64
  speed : Float32
  route : List Vec3

namespace Guard

/-- The corner of the guard's cell where its route begins. -/
def origin (id : UInt64) : Vec3 :=
  ⟨(id % 16).toFloat32 * 20, 0, (id / 16).toFloat32 * 20⟩

/-- The length of a side of the guard's route. -/
def side (id : UInt64) : Float32 := 8 + (id % 3).toFloat32 * 2

/-- The guard of an id. -/
def ofId (id : UInt64) : Guard where
  id := id
  speed := 3 + (id % 4).toFloat32 * 0.5
  route :=
    let side := side id
    [Vec3.zero, ⟨side, 0, 0⟩, ⟨side, 0, side⟩, ⟨0, 0, side⟩].map (origin id + ·)

end Guard

end BehaviorTree
