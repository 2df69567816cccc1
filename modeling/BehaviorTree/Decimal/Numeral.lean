/-!
# Reading numerals

A numeral has a sign, digits with or without a point, and an optional exponent; infinity and
not-a-number have names. Its value is rounded once to the wanted precision.
-/

namespace BehaviorTree

/-- A numeral: a signed decimal, or the name of a value that is none. -/
inductive Numeral where
  | decimal (negative : Bool) (digits : Nat) (exponent : Int)
  | infinity (negative : Bool)
  | nan
  deriving DecidableEq, Repr

namespace Numeral

/-- The number that some digits stand for. -/
def ofDigits (cs : List Char) : Nat := cs.foldl (fun n c => 10 * n + (c.toNat - '0'.toNat)) 0

/-- Splits off a leading sign and says whether it is a minus. -/
def splitSign : List Char → Bool × List Char
  | '-' :: rest => (true, rest)
  | '+' :: rest => (false, rest)
  | cs => (false, cs)

/-- Reads an optional exponent that makes up the rest of a numeral. -/
def exponent? : List Char → Option Int
  | [] => some 0
  | c :: rest =>
    if c = 'e' ∨ c = 'E' then
      let (negative, digits) := splitSign rest
      if digits.isEmpty || !digits.all Char.isDigit then none
      else some (if negative then -(ofDigits digits : Int) else ofDigits digits)
    else none

/-- Reads a decimal without its sign: at least one digit before or after the point. -/
def magnitude? (cs : List Char) : Option (Nat × Int) :=
  let whole := cs.takeWhile Char.isDigit
  let rest := cs.dropWhile Char.isDigit
  let (places, rest) := match rest with
    | '.' :: rest => (rest.takeWhile Char.isDigit, rest.dropWhile Char.isDigit)
    | _ => ([], rest)
  if whole.isEmpty && places.isEmpty then none
  else (exponent? rest).map fun e => (ofDigits (whole ++ places), e - places.length)

/-- Reads a numeral; names are read in any case. -/
def ofText? (s : String) : Option Numeral :=
  let (negative, cs) := splitSign s.toList
  let lower := String.ofList (cs.map Char.toLower)
  if lower = "inf" ∨ lower = "infinity" then some (.infinity negative)
  else if lower = "nan" then some .nan
  else (magnitude? cs).map fun (digits, e) => .decimal negative digits e

/-- Whether the numeral is a decimal. -/
def isDecimal : Numeral → Bool
  | decimal .. => true
  | _ => false

/-- The exponent of a decimal, cut off where a further one no longer matters: at `10 ^ 400` every
decimal but zero is infinite, and below `10 ^ (-400)` every one is zero, in either precision. -/
def cutExponent (digits : Nat) (e : Int) : Int :=
  max (-400 - (toString digits).length) (min 400 e)

/-- The value of the numeral in single precision. -/
def toSingle : Numeral → Float32
  | nan => 0 / 0
  | infinity negative => if negative then -1 / 0 else 1 / 0
  | decimal negative digits e =>
    let e := cutExponent digits e
    let x := Float32.ofScientific digits (decide (e < 0)) e.natAbs
    if negative then -x else x

/-- The value of the numeral in double precision. -/
def toDouble : Numeral → Float
  | nan => 0 / 0
  | infinity negative => if negative then -1 / 0 else 1 / 0
  | decimal negative digits e =>
    let e := cutExponent digits e
    let x := Float.ofScientific digits (decide (e < 0)) e.natAbs
    if negative then -x else x

/-- The whole number written with digits alone. -/
def natural? (s : String) : Option Nat :=
  let cs := s.toList
  if cs.isEmpty || !cs.all Char.isDigit then none else some (ofDigits cs)

end Numeral

end BehaviorTree
