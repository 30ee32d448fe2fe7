import QuadProg.Decimal.ExactValue

/-!
# Scientific notation

Numbers are reported with one digit before the point, a fixed number of digits after it and a plain
decimal exponent. The digits are those of the exact value rounded to nearest; a tie goes to the even
neighbour.
-/

namespace QuadProg

namespace Decimal

/-- The quotient `num / den` rounded to the nearest natural number, a tie to the even one. -/
def roundDiv (num den : Nat) : Nat :=
  let q := num / den
  let twice := 2 * (num % den)
  if twice < den then q else if den < twice then q + 1 else q + q % 2

/-- The number of decimal digits. -/
def digitCount (n : Nat) : Nat := (Nat.toDigits 10 n).length

/-- The exponent `k` with `10 ^ k ≤ num / den < 10 ^ (k + 1)`, for positive operands: scaling by a
power of ten above `den` makes the integral part of the quotient positive without changing its
leading digit. -/
def decimalExponent (num den : Nat) : Int :=
  let lift := digitCount den
  (digitCount (num * Nat.pow 10 lift / den) : Int) - 1 - lift

/-- The digits with `places` of them after the point, and the exponent, of a positive quotient.
Rounding up to the next power of ten moves the point. -/
def digits (places num den : Nat) : Nat × Int :=
  let k := decimalExponent num den
  let up := (places - k).toNat
  let down := (k - places).toNat
  let q := roundDiv (num * Nat.pow 10 up) (den * Nat.pow 10 down)
  if q = Nat.pow 10 (places + 1) then (Nat.pow 10 places, k + 1) else (q, k)

/-- The text of a number with `places` digits after the point. -/
def scientific (places : Nat) : ExactValue → String
  | .nan => "NaN"
  | .infinite negative => if negative then "-inf" else "inf"
  | .finite negative mantissa exponent =>
    let sign := if negative then "-" else ""
    let (q, k) :=
      if mantissa = 0 then (0, 0)
      else digits places (mantissa * Nat.pow 2 exponent.toNat) (Nat.pow 2 (-exponent).toNat)
    let tail := "".pushn '0' (places + 1 - digitCount q) ++ toString q
    sign ++ String.ofList (tail.toList.take 1) ++ "." ++ String.ofList (tail.toList.drop 1) ++ "e" ++
      toString k

/-- The text padded with blanks from the left; a longer text is kept whole. -/
def padLeft (width : Nat) (text : String) : String :=
  "".pushn ' ' (width - text.length) ++ text

end Decimal

/-- Reports write numbers with three digits after the point. -/
def reportNumber {α : Type} [HasExactValue α] (x : α) : String :=
  Decimal.scientific 3 (HasExactValue.exactValue x)

/-- In tables the number stands right-aligned in ten columns. -/
def reportCell {α : Type} [HasExactValue α] (x : α) : String :=
  Decimal.padLeft 10 (reportNumber x)

end QuadProg
