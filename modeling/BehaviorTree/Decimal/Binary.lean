/-!
# Binary fractions

A finite single precision number is a sign and an exact binary fraction `m * 2 ^ q`. This is the
form in which decimal texts are computed from it.
-/

namespace BehaviorTree

/-- A non-negative binary fraction `mantissa * 2 ^ exponent`. -/
structure Binary where
  mantissa : Nat
  exponent : Int
  deriving DecidableEq, Repr

/-- What a single precision number is: not a number, infinite, or a signed binary fraction. The
flag `lowest` marks the smallest mantissa of a binade, below which the grid is twice as fine. -/
inductive FloatShape where
  | nan
  | infinite (negative : Bool)
  | finite (negative : Bool) (magnitude : Binary) (lowest : Bool)
  deriving DecidableEq, Repr

namespace FloatShape

/-- Splits a word of sign, eight bits of exponent and twenty-three of fraction. -/
def ofBits (word : UInt32) : FloatShape :=
  let negative := word >>> 31 == 1
  let exponent := (word >>> 23 &&& 0xff).toNat
  let fraction := (word &&& 0x7fffff).toNat
  if exponent = 255 then
    if fraction = 0 then .infinite negative else .nan
  else if exponent = 0 then
    .finite negative ⟨fraction, -149⟩ false
  else
    .finite negative ⟨Nat.pow 2 23 + fraction, exponent - 150⟩ (fraction == 0 && exponent != 1)

/-- The shape of a number. -/
def ofFloat (x : Float32) : FloatShape := ofBits x.toBits

end FloatShape

end BehaviorTree
