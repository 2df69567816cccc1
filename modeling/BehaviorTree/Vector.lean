/-!
# Single precision vectors

Points of the plane and of space with `Float32` coordinates. Every operation rounds after each
step, in the order in which it is written here.
-/

namespace BehaviorTree

/-- A point of the plane: where an author placed a node on the canvas. -/
structure Vec2 where
  x : Float32
  y : Float32
  deriving DecidableEq

namespace Vec2

/-- The origin of the plane. -/
def zero : Vec2 := ⟨0, 0⟩

instance : Inhabited Vec2 := ⟨zero⟩

end Vec2

/-- A point or direction in space. -/
structure Vec3 where
  x : Float32
  y : Float32
  z : Float32
  deriving DecidableEq

namespace Vec3

/-- The origin of space. -/
def zero : Vec3 := ⟨0, 0, 0⟩

instance : Inhabited Vec3 := ⟨zero⟩

instance : Add Vec3 := ⟨fun a b => ⟨a.x + b.x, a.y + b.y, a.z + b.z⟩⟩

instance : Sub Vec3 := ⟨fun a b => ⟨a.x - b.x, a.y - b.y, a.z - b.z⟩⟩

/-- Every coordinate times a factor. -/
def scale (v : Vec3) (factor : Float32) : Vec3 := ⟨v.x * factor, v.y * factor, v.z * factor⟩

/-- Every coordinate over a divisor. -/
def shrink (v : Vec3) (divisor : Float32) : Vec3 := ⟨v.x / divisor, v.y / divisor, v.z / divisor⟩

/-- The scalar product, summed from the first coordinate on. -/
def dot (a b : Vec3) : Float32 := a.x * b.x + a.y * b.y + a.z * b.z

/-- The Euclidean length. -/
def length (v : Vec3) : Float32 := (v.dot v).sqrt

/-- Numeric equality of all coordinates: no NaN is equal to anything, and the two zeros agree. -/
def sameNumbers (a b : Vec3) : Bool := a.x == b.x && a.y == b.y && a.z == b.z

end Vec3

end BehaviorTree
