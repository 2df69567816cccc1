import BehaviorTree.Blackboard.Access
import BehaviorTree.Clock

/-!
# Reading after writing

A write is what a later read of its key sees, and no read of another key.
-/

namespace BehaviorTree

namespace Blackboard

/-- After a write, the key has the value, and of every other key the same is visible as before. -/
theorem value?_set (b : Blackboard) (key other : String) (v : Value) :
    (b.set key v).value? other = if key = other then some v else b.value? other := by
  rw [value?_eq_or, localValue?_set, value?_eq_or]
  split
  · rfl
  · rfl

/-- A read looks at nothing but the visible value of its key. -/
theorem readD_congr {b b' : Blackboard} {key : String} (h : b.value? key = b'.value? key)
    (type : ValueType) (default : type.Carrier) :
    b.readD type key default = b'.readD type key default := by
  rw [readD, read, h]
  rfl

/-- A write to one key leaves the reads of the others. -/
theorem readD_set_of_ne {key other : String} (h : key ≠ other) (b : Blackboard) (v : Value)
    (type : ValueType) (default : type.Carrier) :
    (b.set key v).readD type other default = b.readD type other default :=
  readD_congr (by rw [value?_set, if_neg h]) type default

/-- An integer that was written is read back. -/
theorem getInt_setInt (b : Blackboard) (key : String) (number default : Int64) :
    (b.setInt key number).getInt key default = .ok number := by
  simp only [getInt, setInt, readD, read, value?_set, if_true]
  rfl

/-- A flag that was written is read back. -/
theorem getBool_setBool (b : Blackboard) (key : String) (flag default : Bool) :
    (b.setBool key flag).getBool key default = .ok flag := by
  simp only [getBool, setBool, readD, read, value?_set, if_true]
  rfl

end Blackboard

namespace Clock

/-- Whether a clock is shown on a blackboard: the time since the last tick can be read. -/
def IsShown (b : Blackboard) : Prop := ∃ seconds, b.value? deltaKey = some (.float seconds)

/-- A clock that is published is shown. -/
theorem isShown_publish (c : Clock) (b : Blackboard) : IsShown (c.publish b) := by
  refine ⟨c.seconds, ?_⟩
  rw [publish, Blackboard.value?_set, if_pos rfl]

/-- Publishing the clock leaves the reads of other keys. -/
theorem readD_publish (c : Clock) (b : Blackboard) {key : String} (ht : tickKey ≠ key)
    (hd : deltaKey ≠ key) (type : ValueType) (default : type.Carrier) :
    (c.publish b).readD type key default = b.readD type key default := by
  rw [publish, Blackboard.readD_set_of_ne hd, Blackboard.readD_set_of_ne ht]

end Clock

end BehaviorTree
