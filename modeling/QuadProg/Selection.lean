import QuadProg.Scalar

/-!
# Selecting an index

All choices of the solvers (the entering column, the leaving row, the constraint to add or to drop,
the constraint that limits a step) take the same form. Candidates are scanned in order with a bound
that starts at a given value; a candidate that is admitted and whose value lies strictly below the
bound becomes the choice, and its value the new bound. So the first of several least values wins.
-/

namespace QuadProg

/-- The outcome of a scan: the choice, if any, and the least value met. -/
structure Selection (α : Type) where
  /-- The bound that further candidates have to undercut. -/
  bound : α
  /-- The chosen index. -/
  choice : Option Nat

namespace Selection

variable {α : Type} [Scalar α]

/-- Takes the candidate if it is admitted and undercuts the bound. -/
def consider (allow : Nat → Bool) (value : Nat → α) (best : Selection α) (i : Nat) : Selection α :=
  if allow i && value i < best.bound then ⟨value i, some i⟩ else best

/-- Scans the candidates in order, starting without a choice. -/
def least (bound : α) (allow : Nat → Bool) (value : Nat → α) (candidates : List Nat) :
    Selection α :=
  candidates.foldl (consider allow value) ⟨bound, none⟩

theorem least_singleton (bound : α) (allow : Nat → Bool) (value : Nat → α) (i : Nat) :
    least bound allow value [i] =
      if allow i && value i < bound then ⟨value i, some i⟩ else ⟨bound, none⟩ := rfl

/-- What a scan starts from is kept or replaced by an admitted candidate with its value. -/
theorem foldl_consider (allow : Nat → Bool) (value : Nat → α) (candidates : List Nat)
    (best : Selection α) :
    candidates.foldl (consider allow value) best = best ∨
      ∃ i ∈ candidates, allow i = true ∧
        candidates.foldl (consider allow value) best = ⟨value i, some i⟩ := by
  induction candidates generalizing best with
  | nil => exact Or.inl rfl
  | cons i rest ih =>
    simp only [List.foldl_cons, List.mem_cons]
    by_cases h : allow i = true ∧ value i < best.bound
    · have hstep : consider allow value best i = ⟨value i, some i⟩ := by
        simp [consider, h.1, h.2]
      rw [hstep]
      rcases ih ⟨value i, some i⟩ with hkeep | ⟨j, hj, ha, he⟩
      · exact Or.inr ⟨i, Or.inl rfl, h.1, hkeep⟩
      · exact Or.inr ⟨j, Or.inr hj, ha, he⟩
    · have hstep : consider allow value best i = best := by
        unfold consider
        rw [if_neg]
        simpa using h
      rw [hstep]
      rcases ih best with hkeep | ⟨j, hj, ha, he⟩
      · exact Or.inl hkeep
      · exact Or.inr ⟨j, Or.inr hj, ha, he⟩

/-- A choice is an admitted candidate. -/
theorem mem_of_choice_least {bound : α} {allow : Nat → Bool} {value : Nat → α}
    {candidates : List Nat} {i : Nat} (h : (least bound allow value candidates).choice = some i) :
    i ∈ candidates ∧ allow i = true := by
  rcases foldl_consider allow value candidates ⟨bound, none⟩ with hkeep | ⟨j, hj, ha, he⟩
  · rw [least, hkeep] at h
    cases h
  · rw [least, he] at h
    cases h
    exact ⟨hj, ha⟩

end Selection

end QuadProg
