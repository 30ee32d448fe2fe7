/-!
# Scalars

The arithmetic of the solvers is written once, over a type of scalars that promises operations and
no laws. Read over a floating-point type every definition of this library is a program whose results
are rounded after each operation; read over an ordered field it is the textbook algorithm. Since no
law is assumed, sums are never reassociated: the order of the operations is part of each definition.

`sumTo` and `diffTo` are the only two loops over terms. Both accumulate from the left, in ascending
order of the index.
-/

namespace QuadProg

/-- Numbers that can be computed with. Comparisons are decidable; nothing else is assumed, so a type
whose comparisons all fail on a value that is not a number qualifies. -/
class Scalar (α : Type) extends Add α, Sub α, Mul α, Div α, Neg α, Zero α, One α,
    LT α, LE α, BEq α where
  /-- The magnitude. -/
  abs : α → α
  /-- The square root. -/
  sqrt : α → α
  /-- A positive number that counts as tiny next to one. -/
  epsilon : α
  /-- A number that counts as larger than every ratio. -/
  maxValue : α
  /-- The number of bytes that a stored number takes. Exact numbers take none: their storage is no
  concern of the machine. -/
  width : Nat := 0
  /-- Strict comparison is decidable. -/
  decLt : (a b : α) → Decidable (a < b)
  /-- Comparison is decidable. -/
  decLe : (a b : α) → Decidable (a ≤ b)

namespace Scalar

-- A type that has these operations from elsewhere keeps its own.
attribute [instance (10)] toAdd toSub toMul toDiv toNeg toZero toOne toLT toLE toBEq

variable {α : Type} [Scalar α]

instance (a b : α) : Decidable (a < b) := decLt a b

instance (a b : α) : Decidable (a ≤ b) := decLe a b

/-- The larger of two numbers. A value that differs from itself is not a number and gives way to the
other one. -/
def max (a b : α) : α :=
  if a < b then b else if a == a then a else b

/-- The sum `f 0 + f 1 + ⋯ + f (n - 1)`, accumulated from zero. -/
def sumTo (f : Nat → α) : Nat → α
  | 0 => 0
  | n + 1 => sumTo f n + f n

/-- The difference `s - f 0 - f 1 - ⋯ - f (n - 1)`, taken one term at a time. -/
def diffTo (s : α) (f : Nat → α) : Nat → α
  | 0 => s
  | n + 1 => diffTo s f n - f n

/-! ## Small decimal fractions -/

/-- The number ten. -/
def ten : α :=
  let two : α := 1 + 1
  let eight : α := (two + two) + (two + two)
  eight + two

/-- The power `10 ^ k`, by repeated multiplication. -/
def tenPow : Nat → α
  | 0 => 1
  | k + 1 => tenPow k * ten

/-- The decimal fraction `10 ^ (-2 k)`: the reciprocal of the square of `10 ^ k`. With 24 bits of
precision `10 ^ k` is exact up to `k = 7`, so that only the square and the quotient are rounded. -/
def tenth (k : Nat) : α :=
  1 / (tenPow k * tenPow k)

end Scalar

end QuadProg
