/-!
# Refused operations

Operations on vectors, matrices and factorisations have preconditions on sizes and indices. Each one
comes in two forms: a total function, which says what is computed where the precondition holds, and
a checked function, marked by a question mark, which tests the precondition first and refuses the
call with a `Fault` otherwise.
-/

namespace QuadProg

/-- Why an operation was refused. -/
inductive Fault where
  /-- The sizes of the operands do not fit together. -/
  | sizeMismatch
  /-- A row, column or index lies outside of the operand. -/
  | outOfRange
  /-- The operation is defined for full storage only and was given a packed matrix. -/
  | packedStorage
  /-- A system was to be solved without a successful factorisation. -/
  | notFactored
  /-- A right-hand side of a standard form is negative or not a number. -/
  | negativeRhs
  /-- A size or a number of stored entries is beyond the limits of memory. -/
  | tooLarge
deriving DecidableEq

/-- A computation that may be refused. -/
abbrev Checked (β : Type) := Except Fault β

/-- Refuses with `fault` unless `p` holds. -/
def require (p : Prop) [Decidable p] (fault : Fault) : Checked Unit :=
  if p then .ok () else .error fault

/-- Returns `value` if `p` holds and refuses with `fault` otherwise. The value is computed only
after `p` has been found to hold, since its size may have no bound but the one that `p` states. -/
@[macro_inline] def guarded {β : Type} (p : Prop) [Decidable p] (fault : Fault) (value : β) : Checked β :=
  if p then .ok value else .error fault

theorem require_eq_ok {p : Prop} [Decidable p] {fault : Fault} (h : p) :
    require p fault = .ok () := if_pos h

theorem guarded_eq_ok {β : Type} {p : Prop} [Decidable p] {fault : Fault} {value : β} (h : p) :
    guarded p fault value = .ok value := if_pos h

theorem guarded_eq_ok_iff {β : Type} {p : Prop} [Decidable p] {fault : Fault} {value result : β} :
    guarded p fault value = .ok result ↔ p ∧ value = result := by
  by_cases h : p <;> simp [guarded, h]

/-- A sequence succeeds exactly when each of its steps does. -/
theorem Checked.bind_eq_ok_iff {β γ : Type} {x : Checked β} {f : β → Checked γ} {result : γ} :
    (x >>= f) = .ok result ↔ ∃ y, x = .ok y ∧ f y = .ok result := by
  cases x <;> simp [bind, Except.bind]

end QuadProg
