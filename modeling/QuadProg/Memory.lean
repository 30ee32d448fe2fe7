/-!
# Memory

Sizes are machine words of 64 bits, and an array takes at most half of the addresses that a word can
name. A matrix without entries takes no room whatever its size is, so both limits are met by small
inputs; the operations that would pass them are refused.
-/

namespace QuadProg

/-- The first number that does not fit a machine word of 64 bits. -/
def wordBound : Nat := 0x10000000000000000

/-- The first number of bytes that is too large for an array. -/
def arrayBound : Nat := 0x8000000000000000

/-- There is an array of `count` elements of `width` bytes each. -/
def Addressable (width count : Nat) : Prop := width * count < arrayBound

instance (width count : Nat) : Decidable (Addressable width count) :=
  inferInstanceAs (Decidable (_ < _))

end QuadProg
