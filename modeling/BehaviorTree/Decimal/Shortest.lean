import BehaviorTree.Decimal.Binary

/-!
# The shortest decimal that reads back

Around a binary fraction lies the interval of the numbers that round to it. The shortest decimal
is found on the coarsest grid of powers of ten that has a point in this interval; of two such
points the nearer is taken, and of two equally near ones the upper.
-/

namespace BehaviorTree

/-- A non-negative decimal `digits * 10 ^ exponent`. -/
structure Decimal where
  digits : Nat
  exponent : Int
  deriving DecidableEq, Repr

namespace Decimal

/-- The decimal of exactly the value of a binary fraction. -/
def exact (b : Binary) : Decimal :=
  ⟨b.mantissa * Nat.pow 2 b.exponent.toNat * Nat.pow 5 (-b.exponent).toNat, min b.exponent 0⟩

/-- The multiple of `10 ^ grid` that reads back as `b`, if there is one. All lengths are counted
in quarters of the last place of `b`, over the common denominator `den`; a multiple on the edge of
the interval counts when the mantissa is even. -/
def onGrid? (b : Binary) (lowest : Bool) (grid : Int) : Option Nat :=
  let unit := Nat.pow 2 (b.exponent - 2).toNat * Nat.pow 10 (-grid).toNat
  let den := Nat.pow 2 (2 - b.exponent).toNat * Nat.pow 10 grid.toNat
  let value := 4 * b.mantissa * unit
  let low := (4 * b.mantissa - if lowest then 1 else 2) * unit
  let high := (4 * b.mantissa + 2) * unit
  let even := b.mantissa % 2 == 0
  let below := value / den
  let above := below + 1
  let belowOk := 0 < below && (low < below * den || even && low == below * den)
  let aboveOk := above * den < high || even && above * den == high
  if belowOk && aboveOk then
    if value - below * den < above * den - value then some below else some above
  else if belowOk then some below
  else if aboveOk then some above
  else none

/-- Looks for a point on ever finer grids; the exact decimal stands in when the grids run out. -/
def coarsest (b : Binary) (lowest : Bool) : (grids : Nat) → (grid : Int) → Decimal
  | 0, _ => exact b
  | grids + 1, grid =>
    match onGrid? b lowest grid with
    | some digits => ⟨digits, grid⟩
    | none => coarsest b lowest grids (grid - 1)

/-- The shortest decimal that reads back as a positive binary fraction. The first grid is coarser
than the fraction and the last is finer than a quarter of its last place. -/
def shortest (b : Binary) (lowest : Bool) : Decimal :=
  let start : Int := ((b.mantissa.log2 + 1 : Nat) + b.exponent).toNat / 3 + 1
  coarsest b lowest (start.toNat + (2 - b.exponent).toNat + 1) start

end Decimal

end BehaviorTree
