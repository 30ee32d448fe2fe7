import Mathlib
import QuadProg.Mat.Basic

/-!
# Numbers that may be no number

The rational numbers with one value more, which is no number. It spreads through all operations, and
no comparison with it holds, not even the one with itself. What is proved without laws of arithmetic
can be tried on these scalars.
-/

namespace QuadProg

/-- A rational number or no number, the result of a division by zero and of most roots. -/
inductive Lossy where
  | nan
  | num (q : ℚ)

namespace Lossy

/-- Applies an operation to numbers. -/
def map (f : ℚ → Lossy) : Lossy → Lossy
  | nan => nan
  | num q => f q

/-- Compares numbers; no comparison with `nan` holds. -/
def compare (r : ℚ → ℚ → Bool) : Lossy → Lossy → Bool
  | num a, num b => r a b
  | _, _ => false

instance : Scalar Lossy where
  add a b := a.map fun x => b.map fun y => num (x + y)
  sub a b := a.map fun x => b.map fun y => num (x - y)
  mul a b := a.map fun x => b.map fun y => num (x * y)
  div a b := a.map fun x => b.map fun y => if y = 0 then nan else num (x / y)
  neg a := a.map fun x => num (-x)
  zero := num 0
  one := num 1
  lt a b := compare (fun x y => decide (x < y)) a b = true
  le a b := compare (fun x y => decide (x ≤ y)) a b = true
  beq := compare fun x y => decide (x = y)
  abs a := a.map fun x => num |x|
  sqrt a := a.map fun x => if x = 0 ∨ x = 1 then num x else nan
  epsilon := num (1 / 2 ^ 52)
  maxValue := num (2 ^ 1024)
  width := 8
  decLt _ _ := inferInstanceAs (Decidable (_ = true))
  decLe _ _ := inferInstanceAs (Decidable (_ = true))

protected theorem mul_comm (u v : Lossy) : u * v = v * u := by
  cases u with
  | nan => cases v <;> rfl
  | num x =>
    cases v with
    | nan => rfl
    | num y => exact congrArg num (mul_comm x y)

/-- The matrix of size one. -/
def cell (v : Lossy) : Mat Lossy := ⟨.packed 1, #[v], rfl⟩

/-- The matrix of one column with two entries. -/
def column (u v : Lossy) : Mat Lossy := ⟨.general 2 1, #[u, v], rfl⟩

end Lossy

end QuadProg
