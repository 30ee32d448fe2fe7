import QuadProg.Scalar

/-!
# Floating-point scalars

Double and single precision as scalars. `epsilon` is the distance from one to the next number and
`maxValue` the largest finite number. Both are given by their binary encoding. A double takes eight
bytes and a single four.
-/

namespace QuadProg

instance : Scalar Float where
  zero := 0
  one := 1
  abs := Float.abs
  sqrt := Float.sqrt
  epsilon := Float.ofBits 0x3cb0000000000000
  maxValue := Float.ofBits 0x7fefffffffffffff
  width := 8
  decLt a b := inferInstanceAs (Decidable (a < b))
  decLe a b := inferInstanceAs (Decidable (a ≤ b))

instance : Scalar Float32 where
  zero := 0
  one := 1
  abs := Float32.abs
  sqrt := Float32.sqrt
  epsilon := Float32.ofBits 0x34000000
  maxValue := Float32.ofBits 0x7f7fffff
  width := 4
  decLt a b := inferInstanceAs (Decidable (a < b))
  decLe a b := inferInstanceAs (Decidable (a ≤ b))

end QuadProg
