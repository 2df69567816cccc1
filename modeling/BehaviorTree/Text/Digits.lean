/-!
# Digits

Reading whole numbers that are written in a base up to sixteen.
-/

namespace BehaviorTree

namespace Digits

/-- The value of a digit in a base up to sixteen. -/
def value? (base : Nat) (c : Char) : Option Nat :=
  let n := c.toNat
  let v :=
    if '0'.toNat ≤ n ∧ n ≤ '9'.toNat then n - '0'.toNat
    else if 'a'.toNat ≤ n ∧ n ≤ 'f'.toNat then n - 'a'.toNat + 10
    else if 'A'.toNat ≤ n ∧ n ≤ 'F'.toNat then n - 'A'.toNat + 10
    else base
  if v < base then some v else none

/-- The number that digits stand for in a base; at least one digit is needed. -/
def toNat? (base : Nat) (cs : List Char) : Option Nat :=
  if cs.isEmpty then none
  else cs.foldlM (fun n c => (value? base c).map (base * n + ·)) 0

end Digits

end BehaviorTree
