import BehaviorTree.Decimal.Shortest

/-!
# Decimal texts of numbers

One renderer for all default number formats; a `FloatStyle` holds what they decide differently.
-/

namespace BehaviorTree

namespace Decimal

/-- The decimal exponent of the leading digit. -/
def leading (d : Decimal) : Int := (toString d.digits).length - 1 + d.exponent

/-- Without an exponent: zeros fill the places between the digits and the point. -/
def positional (d : Decimal) : String :=
  let digits := toString d.digits
  if 0 ≤ d.exponent then
    digits ++ String.ofList (List.replicate d.exponent.toNat '0')
  else
    let places := (-d.exponent).toNat
    let padded := List.replicate (places + 1 - digits.length) '0' ++ digits.toList
    String.ofList (padded.take (padded.length - places)) ++ "." ++
      String.ofList (padded.drop (padded.length - places))

/-- One digit before the point, and an exponent. -/
def scientific (d : Decimal) : String :=
  match (toString d.digits).toList with
  | [] => ""
  | [c] => String.singleton c ++ "e" ++ toString d.leading
  | c :: rest => String.singleton c ++ "." ++ String.ofList rest ++ "e" ++ toString d.leading

end Decimal

/-- What a number format decides. -/
structure FloatStyle where
  /-- Whether a whole number written without exponent keeps `.0`. -/
  keepsPoint : Bool
  /-- The exponents of the leading digit that are written without exponent; `none` for all. -/
  plain : Option (Int × Int)
  nan : String
  infinity : String

namespace FloatStyle

/-- Numbers in messages: never an exponent, and whole numbers without a point. -/
def message : FloatStyle := ⟨false, none, "NaN", "inf"⟩

/-- Numbers in descriptions: whole numbers keep `.0`, and very large and very small ones get an
exponent. -/
def description : FloatStyle := ⟨true, some (-4, 15), "NaN", "inf"⟩

/-- Numbers in configuration documents. -/
def document : FloatStyle := ⟨true, some (-6, 12), ".nan", ".inf"⟩

/-- Numbers in reports; what is not finite is written as nothing. -/
def report : FloatStyle := ⟨true, some (-6, 12), "null", "null"⟩

/-- The text of a decimal. -/
def decimal (style : FloatStyle) (d : Decimal) : String :=
  let isPlain := match style.plain with
    | none => true
    | some (low, high) => decide (low ≤ d.leading ∧ d.leading ≤ high)
  if isPlain then
    d.positional ++ if style.keepsPoint && decide (0 ≤ d.exponent) then ".0" else ""
  else
    d.scientific

/-- The text of a number: its shortest decimal behind its sign. -/
def text (style : FloatStyle) (x : Float32) : String :=
  match FloatShape.ofFloat x with
  | .nan => style.nan
  | .infinite negative => (if negative then "-" else "") ++ style.infinity
  | .finite negative magnitude lowest =>
    let d := if magnitude.mantissa = 0 then ⟨0, 0⟩ else Decimal.shortest magnitude lowest
    (if negative then "-" else "") ++ style.decimal d

end FloatStyle

end BehaviorTree
