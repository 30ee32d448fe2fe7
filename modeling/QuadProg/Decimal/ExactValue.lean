/-!
# Exact values

The exact value behind a binary floating-point encoding: a sign, a natural mantissa and a power of
two, or one of the special values. `ExactValue.ofBits` reads the common layout of sign, biased
exponent and fraction for any widths of the two fields.
-/

namespace QuadProg

/-- The exact value of a floating-point number. -/
inductive ExactValue where
  /-- Not a number. -/
  | nan
  /-- An infinity with its sign. -/
  | infinite (negative : Bool)
  /-- The number `mantissa * 2 ^ exponent` with its sign; zero keeps its sign as well. -/
  | finite (negative : Bool) (mantissa : Nat) (exponent : Int)
deriving DecidableEq

/-- Scalars with an exact value. -/
class HasExactValue (α : Type) where
  /-- The exact value of a scalar. -/
  exactValue : α → ExactValue

namespace ExactValue

/-- Reads an encoding with `width` exponent bits over `fraction` fraction bits. The largest exponent
stands for the special values, the smallest for numbers without the implicit leading bit. -/
def ofBits (width fraction : Nat) (bits : Nat) : ExactValue :=
  let power := Nat.pow 2
  let negative := bits / power (width + fraction) % 2 == 1
  let biased := bits / power fraction % power width
  let rest := bits % power fraction
  let bias := power (width - 1) - 1 + fraction
  if biased + 1 = power width then
    if rest = 0 then .infinite negative else .nan
  else if biased = 0 then .finite negative rest (1 - (bias : Int))
  else .finite negative (power fraction + rest) ((biased : Int) - bias)

end ExactValue

instance : HasExactValue Float where
  exactValue x := ExactValue.ofBits 11 52 x.toBits.toNat

instance : HasExactValue Float32 where
  exactValue x := ExactValue.ofBits 8 23 x.toBits.toNat

end QuadProg
