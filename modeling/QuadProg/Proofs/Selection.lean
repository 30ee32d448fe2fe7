import QuadProg.Proofs.Exact
import QuadProg.Selection

/-!
# What a scan selects

Over exact scalars the bound that a scan ends with is the least of the bound it started from and the
values of the admitted candidates; the choice is a candidate that attains it.
-/

namespace QuadProg

namespace Selection

variable {K : Type} [Field K] [LinearOrder K] [Exact K]
variable {bound : K} {allow : ℕ → Bool} {value : ℕ → K} {candidates : List ℕ}

theorem bound_consider_le (best : Selection K) (i : ℕ) :
    (consider allow value best i).bound ≤ best.bound := by
  unfold consider
  split
  · next h => exact le_of_lt (by simpa using (Bool.and_eq_true_iff.1 h).2)
  · exact le_rfl

theorem bound_consider_le_value (best : Selection K) {i : ℕ} (hi : allow i = true) :
    (consider allow value best i).bound ≤ value i := by
  unfold consider
  split
  · exact le_rfl
  · next h => simpa [hi] using h

theorem bound_foldl_le (best : Selection K) :
    (candidates.foldl (consider allow value) best).bound ≤ best.bound := by
  induction candidates generalizing best with
  | nil => exact le_rfl
  | cons i rest ih => exact (ih _).trans (bound_consider_le best i)

theorem bound_foldl_le_value (best : Selection K) {i : ℕ} (hmem : i ∈ candidates)
    (hi : allow i = true) : (candidates.foldl (consider allow value) best).bound ≤ value i := by
  induction candidates generalizing best with
  | nil => cases hmem
  | cons j rest ih =>
    rcases List.mem_cons.1 hmem with rfl | hrest
    · rw [List.foldl_cons]
      exact (bound_foldl_le _).trans (bound_consider_le_value best hi)
    · exact ih _ hrest

theorem le_value_of_choice_eq_none (h : (least bound allow value candidates).choice = none) {i : ℕ}
    (hmem : i ∈ candidates) (hi : allow i = true) : bound ≤ value i := by
  have hle : (candidates.foldl (consider allow value) ⟨bound, none⟩).bound ≤ value i :=
    bound_foldl_le_value _ hmem hi
  rcases foldl_consider allow value candidates ⟨bound, none⟩ with hkeep | ⟨j, -, -, he⟩
  · rwa [hkeep] at hle
  · rw [least, he] at h
    cases h

theorem bound_eq_of_choice_eq_none (h : (least bound allow value candidates).choice = none) :
    (least bound allow value candidates).bound = bound := by
  rcases foldl_consider allow value candidates ⟨bound, none⟩ with hkeep | ⟨j, -, -, he⟩
  · rw [least, hkeep]
  · rw [least, he] at h
    cases h

/-- What is known about a choice: its value is the bound that the scan ends with. -/
theorem bound_eq_of_choice_eq_some {i : ℕ}
    (h : (least bound allow value candidates).choice = some i) :
    (least bound allow value candidates).bound = value i := by
  rcases foldl_consider allow value candidates ⟨bound, none⟩ with hkeep | ⟨j, -, -, he⟩
  · rw [least, hkeep] at h
    cases h
  · rw [least, he] at h ⊢
    cases h
    rfl

theorem value_le_of_choice_eq_some {i j : ℕ}
    (h : (least bound allow value candidates).choice = some i) (hmem : j ∈ candidates)
    (hj : allow j = true) : value i ≤ value j := by
  rw [← bound_eq_of_choice_eq_some h]
  exact bound_foldl_le_value _ hmem hj

theorem value_lt_of_choice_eq_some {i : ℕ}
    (h : (least bound allow value candidates).choice = some i) : value i < bound := by
  -- Only an undercut replaces what the scan starts from, so this needs an induction of its own.
  have key : ∀ (cs : List ℕ) (best : Selection K), best.bound ≤ bound →
      (best.choice = none ∨ best.bound < bound) →
      (cs.foldl (consider allow value) best).choice = none ∨
        (cs.foldl (consider allow value) best).bound < bound := by
    intro cs
    induction cs with
    | nil => intro best _ hbest; exact hbest
    | cons j rest ih =>
      intro best hle hbest
      refine ih _ ((bound_consider_le best j).trans hle) ?_
      unfold consider
      split
      · next hj =>
        have hlt : value j < best.bound := by simpa using (Bool.and_eq_true_iff.1 hj).2
        exact Or.inr (hlt.trans_le hle)
      · exact hbest
  rw [← bound_eq_of_choice_eq_some h]
  rcases key candidates ⟨bound, none⟩ le_rfl (Or.inl rfl) with hnone | hlt
  · rw [least, hnone] at h
    cases h
  · exact hlt

end Selection

end QuadProg
