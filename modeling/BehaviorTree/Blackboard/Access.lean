import BehaviorTree.Blackboard.Basic

/-!
# Typed access to blackboards

A typed read finds the visible value first and asks for its type second: a nearest value of
another type is an error and never hides behind a well-typed value further out. A key that is not
visible is no error.
-/

namespace BehaviorTree

/-- Why a typed read fails. -/
inductive AccessError where
  /-- The visible value of `key` is not of the requested type. -/
  | typeMismatch (key : String) (requested : ValueType) (stored : Kind)
  deriving DecidableEq, Repr

/-- The error in words. -/
def AccessError.message : AccessError → String
  | .typeMismatch key requested stored =>
    "blackboard type mismatch for key `" ++ key ++ "`: stored " ++ stored.name ++ ", requested "
      ++ requested.name

namespace Blackboard

/-- The visible value of a key at a type; `none` when the key is not visible. -/
def read (b : Blackboard) (type : ValueType) (key : String) :
    Except AccessError (Option type.Carrier) :=
  match b.value? key with
  | none => .ok none
  | some v =>
    match v.read? type with
    | some x => .ok (some x)
    | none => .error (.typeMismatch key type v.kind)

/-- The visible value of a key at a type, with a default for a key that is not visible. -/
def readD (b : Blackboard) (type : ValueType) (key : String) (default : type.Carrier) :
    Except AccessError type.Carrier :=
  (b.read type key).map (·.getD default)

/-- The visible integer of a key. -/
def getInt (b : Blackboard) (key : String) (default : Int64) : Except AccessError Int64 :=
  b.readD .int key default

/-- The visible number of a key. -/
def getFloat (b : Blackboard) (key : String) (default : Float32) : Except AccessError Float32 :=
  b.readD .float key default

/-- The visible flag of a key. -/
def getBool (b : Blackboard) (key : String) (default : Bool) : Except AccessError Bool :=
  b.readD .bool key default

/-- The visible vector of a key. -/
def getVector (b : Blackboard) (key : String) (default : Vec3) : Except AccessError Vec3 :=
  b.readD .vector key default

/-- Writes an integer into the local scope. -/
def setInt (b : Blackboard) (key : String) (number : Int64) : Blackboard := b.set key (.int number)

/-- Writes a number into the local scope. -/
def setFloat (b : Blackboard) (key : String) (number : Float32) : Blackboard :=
  b.set key (.float number)

/-- Writes a flag into the local scope. -/
def setBool (b : Blackboard) (key : String) (flag : Bool) : Blackboard := b.set key (.bool flag)

/-- Writes a vector into the local scope. -/
def setVector (b : Blackboard) (key : String) (point : Vec3) : Blackboard :=
  b.set key (.vector point)

/-- Writes a value of any type into the local scope; `id` names the object it becomes, if any. -/
def write (b : Blackboard) (id : ObjectId) (type : ValueType) (key : String) (v : type.Carrier) :
    Blackboard :=
  b.set key (.store id type v)

end Blackboard

end BehaviorTree
