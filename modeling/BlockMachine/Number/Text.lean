import BlockMachine.Number.Shortest

namespace BlockMachine

/-! # Number text

A number is written with the fewest digits that read back to it, always
positionally: no exponent, and no point unless digits follow it. -/

namespace Decimal

/-- Write a decimal positionally. -/
def text (decimal : Decimal) : String :=
  let digits := Nat.toDigits 10 decimal.digits
  match decimal.exponent with
  | .ofNat zeros => String.ofList (digits ++ List.replicate zeros '0')
  | .negSucc places =>
    -- One digit at least stands before the point.
    let padded := List.replicate (places + 2 - digits.length) '0' ++ digits
    let (whole, fraction) := padded.splitAt (padded.length - (places + 1))
    String.ofList (whole ++ '.' :: fraction)

example : text ⟨15, -1⟩ = "1.5" := by cbv

example : text ⟨1, -7⟩ = "0.0000001" := by cbv

example : text ⟨12, 3⟩ = "12000" := by cbv

end Decimal

/-! ## Binary numbers -/

/-- A positive number `mantissa * 2 ^ (exponent - 2)`, seen among its neighbours.
`narrow` tells that the next number below is only half as far as the one above. -/
structure Binary where
  mantissa : Nat
  exponent : Int
  narrow : Bool
  positive : 0 < mantissa

namespace Binary

/-- The numbers nearer to this one than to a neighbour, in units small enough to
make both ends whole: quarters of the last place, times a power of five if these
quarters are fractions. A half-way point belongs to the even mantissa. -/
def range (number : Binary) : Range :=
  let scale := if 0 ≤ number.exponent then Nat.pow 2 number.exponent.toNat
    else Nat.pow 5 (-number.exponent).toNat
  have scalePositive : 0 < scale := by
    simp only [scale]
    split <;> exact Nat.pow_pos (by decide)
  { low := (4 * number.mantissa - if number.narrow then 1 else 2) * scale
    value := 4 * number.mantissa * scale
    high := (4 * number.mantissa + 2) * scale
    inclusive := number.mantissa % 2 == 0
    low_lt_value := by
      have := number.positive
      exact Nat.mul_lt_mul_of_pos_right (by split <;> omega) scalePositive
    value_lt_high := Nat.mul_lt_mul_of_pos_right (by omega) scalePositive }

/-- The decimal with fewest digits that is nearer to this number than to any
other, and among those the nearest. -/
def shortest (number : Binary) : Decimal :=
  let decimal := number.range.shortest
  ⟨decimal.digits, decimal.exponent + min 0 number.exponent⟩

end Binary

/-! ## Double precision -/

/-- The text of a number that is neither infinite nor NaN, from the two fields of
its bits. A zero exponent field marks the numbers below the first full binade. -/
def magnitudeText (exponentField fractionField : Nat) : String :=
  if exponentField = 0 then
    if positive : 0 < fractionField then
      (Binary.shortest ⟨fractionField, -1076, false, positive⟩).text
    else
      "0"
  else
    let narrow := fractionField == 0 && 1 < exponentField
    (Binary.shortest
      ⟨Nat.pow 2 52 + fractionField, (exponentField : Int) - 1077, narrow,
        Nat.add_pos_left (Nat.pow_pos (by decide)) _⟩).text

/-- How a number is printed. The sign of a negative zero shows. -/
def numberText (value : Float) : String :=
  let bits := value.toBits.toNat
  let sign := if bits / Nat.pow 2 63 = 0 then "" else "-"
  let exponentField := bits / Nat.pow 2 52 % Nat.pow 2 11
  let fractionField := bits % Nat.pow 2 52
  if exponentField = Nat.pow 2 11 - 1 then
    if fractionField = 0 then sign ++ "inf" else "NaN"
  else
    sign ++ magnitudeText exponentField fractionField

end BlockMachine
