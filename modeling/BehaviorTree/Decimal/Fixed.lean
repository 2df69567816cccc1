import BehaviorTree.Decimal.Text

/-!
# Numbers with a fixed number of places

The exact value of a number is rounded once to the wanted places; a half goes to the even
neighbour.
-/

namespace BehaviorTree

namespace Decimal

/-- The whole number nearest to a quotient; a half goes to the even neighbour. -/
def roundDiv (num den : Nat) : Nat :=
  let down := num / den
  let twice := 2 * (num % den)
  if twice < den || twice == den && down % 2 == 0 then down else down + 1

/-- A binary fraction rounded to a number of decimal places. -/
def fixed (b : Binary) (places : Nat) : Decimal :=
  ⟨roundDiv (b.mantissa * Nat.pow 2 b.exponent.toNat * Nat.pow 10 places)
      (Nat.pow 2 (-b.exponent).toNat),
    -(places : Int)⟩

/-- The text of a number with a fixed number of places; the sign of zero is kept. -/
def fixedText (places : Nat) (x : Float32) : String :=
  match FloatShape.ofFloat x with
  | .nan => "NaN"
  | .infinite negative => if negative then "-inf" else "inf"
  | .finite negative magnitude _ =>
    (if negative then "-" else "") ++ (fixed magnitude places).positional

end Decimal

end BehaviorTree
