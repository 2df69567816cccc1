import Std.Data.ExtTreeMap.Lemmas

/-!
# Node identifiers

A node carries a 128-bit identifier from the author's tree into every copy. Its text is the usual
one of five groups of hexadecimal digits.
-/

namespace BehaviorTree

/-- The identifier of a node. -/
structure NodeId where
  bits : BitVec 128
  deriving DecidableEq

namespace NodeId

/-- The identifier of a number. -/
def ofNat (n : Nat) : NodeId := ⟨BitVec.ofNat 128 n⟩

instance : Inhabited NodeId := ⟨ofNat 0⟩

instance : Ord NodeId := ⟨compareOn NodeId.bits⟩

instance : Std.TransOrd NodeId := inferInstanceAs (Std.TransCmp (compareOn NodeId.bits))

instance : Std.LawfulEqOrd NodeId where
  eq_of_compare {a b} h := by
    cases a; cases b
    exact congrArg NodeId.mk (Std.LawfulEqOrd.eq_of_compare h)

/-- The lowest `count` hexadecimal digits of a number, highest first. -/
def hexDigits (count n : Nat) : List Char :=
  (List.range count).reverse.map fun i => Nat.digitChar (n / Nat.pow 16 i % 16)

/-- The identifier as groups of eight, four, four, four and twelve digits. -/
def text (id : NodeId) : String :=
  let digits := hexDigits 32 id.bits.toNat
  let group (start length : Nat) := String.ofList ((digits.drop start).take length)
  "-".intercalate [group 0 8, group 8 4, group 12 4, group 16 4, group 20 12]

end NodeId

end BehaviorTree
