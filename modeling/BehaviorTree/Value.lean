import BehaviorTree.Vector

/-!
# Blackboard values

What a blackboard can hold: four kinds of plain value, and shared objects that are equal only to
themselves. An object carries a payload of any type, a plain one included. A reader asks for a
`ValueType`; `Value.read?` answers when the payload of the stored value has it, whether the value is
plain or an object.
-/

namespace BehaviorTree

/-- The identity of a shared object. -/
structure ObjectId where
  number : Nat
  deriving DecidableEq, Repr

/-- What a value carries: something of a plain type, or of one that only objects carry. -/
inductive Payload where
  | int (number : Int64)
  | float (number : Float32)
  | bool (flag : Bool)
  | vector (point : Vec3)
  | text (content : String)
  | int32 (number : Int32)
  | named (name : String)
  deriving DecidableEq

/-- A value on a blackboard: plain, or a shared object with what it carries. -/
inductive Value where
  | int (number : Int64)
  | float (number : Float32)
  | bool (flag : Bool)
  | vector (point : Vec3)
  | object (id : ObjectId) (payload : Payload)
  deriving DecidableEq

/-- The kinds of stored value. -/
inductive Kind where
  | int
  | float
  | bool
  | vector
  | object
  deriving DecidableEq, Repr

/-- The name under which an error message speaks of a stored value. -/
def Kind.name : Kind → String
  | .int => "int"
  | .float => "float"
  | .bool => "bool"
  | .vector => "vector"
  | .object => "object"

/-- The types a typed read can ask for. -/
inductive ValueType where
  | int
  | float
  | bool
  | vector
  | text
  | int32
  deriving DecidableEq, Repr

namespace ValueType

/-- The values of a type. -/
abbrev Carrier : ValueType → Type
  | .int => Int64
  | .float => Float32
  | .bool => Bool
  | .vector => Vec3
  | .text => String
  | .int32 => Int32

/-- The name under which an error message speaks of the requested type. -/
def name : ValueType → String
  | .int => "i64"
  | .float => "f32"
  | .bool => "bool"
  | .vector => "glam::f32::vec3::Vec3"
  | .text => "alloc::string::String"
  | .int32 => "i32"

/-- What carries a value of a type. -/
def carry : (type : ValueType) → type.Carrier → Payload
  | .int, number => .int number
  | .float, number => .float number
  | .bool, flag => .bool flag
  | .vector, point => .vector point
  | .text, content => .text content
  | .int32, number => .int32 number

end ValueType

/-- Reads a payload back at a type, if it has that type. -/
def Payload.read? : (type : ValueType) → Payload → Option type.Carrier
  | .int, .int number => some number
  | .float, .float number => some number
  | .bool, .bool flag => some flag
  | .vector, .vector point => some point
  | .text, .text content => some content
  | .int32, .int32 number => some number
  | _, _ => none

namespace Value

/-- The kind of a stored value. -/
def kind : Value → Kind
  | .int _ => .int
  | .float _ => .float
  | .bool _ => .bool
  | .vector _ => .vector
  | .object .. => .object

/-- The value that carries a payload: four types are kept inline, any other becomes the object
`id`. -/
def ofPayload (id : ObjectId) : Payload → Value
  | .int number => .int number
  | .float number => .float number
  | .bool flag => .bool flag
  | .vector point => .vector point
  | payload => .object id payload

/-- What a value carries, inline or as an object. -/
def payload : Value → Payload
  | .int number => .int number
  | .float number => .float number
  | .bool flag => .bool flag
  | .vector point => .vector point
  | .object _ payload => payload

/-- Stores a typed value: inline, or as the object `id`. -/
def store (id : ObjectId) (type : ValueType) (v : type.Carrier) : Value :=
  ofPayload id (type.carry v)

/-- Reads a stored value back at a type, if what it carries has that type. -/
def read? (type : ValueType) (v : Value) : Option type.Carrier := v.payload.read? type

/-- Agreement of values of one kind: numbers compare as numbers, objects by identity alone. -/
def agrees : Value → Value → Bool
  | .int a, .int b => a == b
  | .float a, .float b => a == b
  | .bool a, .bool b => a == b
  | .vector a, .vector b => a.sameNumbers b
  | .object a _, .object b _ => a == b
  | _, _ => false

/-- A value carries the payload that it was made for. -/
@[simp] theorem payload_ofPayload (id : ObjectId) (p : Payload) : (ofPayload id p).payload = p := by
  cases p <;> rfl

/-- A payload is carried by the value that is made for it, and by any object that holds it. -/
theorem payload_eq_iff {v : Value} {p : Payload} :
    v.payload = p ↔ ∃ id, v = ofPayload id p ∨ v = .object id p := by
  constructor
  · rintro rfl
    cases v with
    | object id payload => exact ⟨id, .inr rfl⟩
    | _ => exact ⟨⟨0⟩, .inl rfl⟩
  · rintro ⟨id, rfl | rfl⟩
    · exact payload_ofPayload id p
    · rfl

end Value

end BehaviorTree
