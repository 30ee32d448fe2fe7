import QuadProg.Proofs.ActiveSet.Run
import QuadProg.Proofs.Selection
import QuadProg.Proofs.WorkingSet

/-!
# Steps and exchanges in exact arithmetic

What the multipliers of a step are, how far a step goes, and which inequalities an exchange looks
for, in terms of the rows of the program.
-/

namespace QuadProg

open Finset

namespace ActiveSet

/-! ## Multipliers of the active rows -/

section Spread

variable {α : Type} [Scalar α] {p : QuadraticProgram α} {active : List ℕ} {l all : Vec α}

theorem entry_foldl_write_of_ne {me j : ℕ} (iks : List (ℕ × ℕ)) (v : Vec α)
    (h : ∀ ik ∈ iks, me + ik.1 ≠ j) :
    Vec.entry (iks.foldl (fun v ik => v.setIfInBounds (me + ik.1) (l.entry (me + ik.2))) v) j =
      v.entry j := by
  induction iks generalizing v with
  | nil => rfl
  | cons ik rest ih =>
    have hne := h ik List.mem_cons_self
    rw [List.foldl_cons, ih _ fun ik' hik' => h ik' (List.mem_cons_of_mem _ hik'),
      Vec.entry_setIfInBounds, if_neg fun hj => hne hj.1]

theorem entry_foldl_write_of_mem {me : ℕ} {iks : List (ℕ × ℕ)} {v : Vec α} {ik : ℕ × ℕ}
    (hnodup : (iks.map Prod.fst).Nodup) (hmem : ik ∈ iks) (hlt : me + ik.1 < v.size) :
    Vec.entry (iks.foldl (fun v ik => v.setIfInBounds (me + ik.1) (l.entry (me + ik.2))) v)
      (me + ik.1) = l.entry (me + ik.2) := by
  induction iks generalizing v with
  | nil => cases hmem
  | cons head rest ih =>
    obtain ⟨hhead, hrest⟩ := List.nodup_cons.1 hnodup
    rw [List.foldl_cons]
    rcases List.mem_cons.1 hmem with rfl | hmem
    · rw [entry_foldl_write_of_ne, Vec.entry_setIfInBounds, if_pos ⟨rfl, hlt⟩]
      intro ik' hik' heq
      have hfst : ik'.1 = ik.1 := by omega
      exact hhead (hfst ▸ List.mem_map_of_mem hik')
    · exact ih hrest hmem (by rwa [Array.size_setIfInBounds])

theorem entry_base (j : ℕ) :
    Vec.entry (all.mapIdx fun j _ => if j < p.me then l.entry j else 0) j =
      if j < all.size ∧ j < p.me then l.entry j else 0 := by
  by_cases hj : j < all.size <;> simp [Vec.entry, Array.getD, hj]

theorem entry_spread_equality (h : p.me ≤ all.size) {r : ℕ} (hr : r < p.me) :
    (spread p active l all).entry r = l.entry r := by
  rw [spread, entry_foldl_write_of_ne _ _ fun ik _ => by omega, entry_base, if_pos ⟨by omega, hr⟩]

theorem entry_spread_of_notMem {i : ℕ} (hi : i ∉ active) :
    (spread p active l all).entry (p.me + i) = 0 := by
  rw [spread, entry_foldl_write_of_ne, entry_base, if_neg (by omega)]
  intro ik hik heq
  have hfst : ik.1 = i := by omega
  have hmem : ik.1 ∈ active.zipIdx.map Prod.fst := List.mem_map_of_mem hik
  rw [List.zipIdx_map_fst, hfst] at hmem
  exact hi hmem

theorem entry_spread_member (hnodup : active.Nodup)
    (hcovers : ∀ i ∈ active, p.me + i < all.size) {k : ℕ} (hk : k < active.length) :
    (spread p active l all).entry (p.me + active.getD k 0) = l.entry (p.me + k) := by
  have hget : active[k]? = some (active.getD k 0) := by simp [hk]
  have hmem : (active.getD k 0, k) ∈ active.zipIdx := List.mk_mem_zipIdx_iff_getElem?.2 hget
  have hlt : p.me + active.getD k 0 <
      (all.mapIdx fun j _ => if j < p.me then l.entry j else 0).size := by
    rw [Array.size_mapIdx]
    exact hcovers _ (List.mem_of_getElem? hget)
  exact entry_foldl_write_of_mem (by rwa [List.zipIdx_map_fst]) hmem hlt

end Spread

variable {K : Type} [Field K] [LinearOrder K] [Exact K]
variable {par : Params K} {p : QuadraticProgram K}

/-- Summing over the active rows is summing over all inequalities, with the multiplier zero outside
of the active ones. -/
theorem sum_active_eq {active : List ℕ} {l all : Vec K} (hnodup : active.Nodup)
    (hcovers : ∀ i ∈ active, p.me + i < all.size) (hlt : ∀ i ∈ active, i < p.mi)
    (g : ℕ → K) :
    ∑ k ∈ range active.length, g (active.getD k 0) * l.entry (p.me + k) =
      ∑ i ∈ range p.mi, g i * (spread p active l all).entry (p.me + i) := by
  have hmem : ∀ k < active.length, active.getD k 0 ∈ active := by
    intro k hk
    rw [List.getD_eq_getElem _ _ hk]
    exact List.getElem_mem hk
  refine sum_of_injOn (fun k => active.getD k 0) ?_ ?_ ?_ ?_
  · intro k hk k' hk' heq
    have hk : k < active.length := mem_range.1 hk
    have hk' : k' < active.length := mem_range.1 hk'
    simp only [List.getD_eq_getElem _ _ hk, List.getD_eq_getElem _ _ hk'] at heq
    exact (List.Nodup.getElem_inj_iff hnodup).1 heq
  · intro k hk
    exact mem_coe.2 (mem_range.2 (hlt _ (hmem k (mem_range.1 hk))))
  · intro i _ hnot
    rw [entry_spread_of_notMem, mul_zero]
    intro hi
    obtain ⟨k, hk, rfl⟩ := List.getElem_of_mem hi
    exact hnot ⟨k, mem_coe.2 (mem_range.2 hk), List.getD_eq_getElem _ _ hk⟩
  · intro k hk
    rw [entry_spread_member hnodup hcovers (mem_range.1 hk)]

/-- The multipliers of a step balance the gradient at its target. -/
theorem balances_spread {w : WorkingSet} (hw : w.count = p.mi) {t : Target K}
    (ht : SolvesRows p w.members t) {all : Vec K} (hme : p.me ≤ all.size)
    (hcovers : ∀ i ∈ w.members, p.me + i < all.size) :
    p.Balances (spread p w.members t.multipliers all).entry t.x.entry := by
  have hlt : ∀ i ∈ w.members, i < p.mi := by
    intro i hi
    rw [← hw]
    exact WorkingSet.lt_count_of_contains (WorkingSet.mem_members.1 hi)
  intro j hj
  have hequality : ∑ r ∈ range p.me,
      p.ae.get r j * (spread p w.members t.multipliers all).entry r =
        ∑ r ∈ range p.me, p.ae.get r j * t.multipliers.entry r :=
    sum_congr rfl fun r hr => by rw [entry_spread_equality hme (mem_range.1 hr)]
  rw [hequality, ← sum_active_eq w.nodup_members hcovers hlt fun i => p.ai.get i j]
  linear_combination ht.balance j hj

/-! ## Left-hand sides and slacks -/

theorem entry_bodies {idx : List ℕ} {x values : Vec K}
    (h : p.bodies? idx x = .ok values) :
    values.size = idx.length ∧
      ∀ k < idx.length, values.entry k = p.ai.lhs (idx.getD k 0) x.entry := by
  obtain ⟨rows, hrows, h⟩ := Checked.bind_eq_ok_iff.1 h
  obtain ⟨-, rfl⟩ := guarded_eq_ok_iff.1 hrows
  obtain ⟨-, rfl⟩ := guarded_eq_ok_iff.1 h
  refine ⟨Mat.size_mulVec _ _, fun k hk => ?_⟩
  rw [Mat.entry_mulVec_eq_lhs (show k < (p.ai.select idx).rows from hk), Mat.lhs, Mat.lhs]
  refine sum_congr rfl fun j hj => ?_
  rw [Mat.get_select _ _ hk (mem_range.1 hj)]

theorem entry_slacks {idx : List ℕ} {x slacks : Vec K}
    (h : p.slacks? idx x = .ok slacks) {k : ℕ} (hk : k < idx.length) :
    slacks.entry k = p.bound (idx.getD k 0) - p.ai.lhs (idx.getD k 0) x.entry := by
  obtain ⟨values, hvalues, h⟩ := Checked.bind_eq_ok_iff.1 h
  obtain ⟨-, rfl⟩ := guarded_eq_ok_iff.1 h
  obtain ⟨hsize, hentry⟩ := entry_bodies hvalues
  have hlt : k < values.size := by omega
  rw [← hentry k hk]
  simp [Vec.entry, Array.getD, hlt]

theorem exists_getD_eq {l : List ℕ} {i : ℕ} (hi : i ∈ l) : ∃ k < l.length, l.getD k 0 = i := by
  obtain ⟨k, hk, rfl⟩ := List.getElem_of_mem hi
  exact ⟨k, hk, List.getD_eq_getElem _ _ hk⟩

theorem getD_mem {l : List ℕ} {k : ℕ} (hk : k < l.length) : l.getD k 0 ∈ l := by
  rw [List.getD_eq_getElem _ _ hk]
  exact List.getElem_mem hk

/-! ## The stride -/

section Stride

variable {x dx : Vec K} {length : K} {others : List ℕ} {stride : Stride K}

theorem stepRatio_eq_div [IsStrictOrderedRing K] (hslack : par.slack.IsExact) (slack growth : K) :
    stepRatio par slack growth = slack / growth := by
  unfold stepRatio
  split
  · next hsmall => rw [(Tolerance.isSmall_iff hslack _ _).1 hsmall, zero_div]
  · rfl

/-- Without tolerances the inequalities that limit a move are those that grow along it. -/
theorem limitsStep_iff [IsStrictOrderedRing K] (hslack : par.slack.IsExact)
    (hsolution : par.solution.IsExact) {slack : K} (hnonneg : 0 ≤ slack) (growth : K) :
    limitsStep par length slack growth = true ↔ 0 < growth := by
  rw [limitsStep, stepRatio_eq_div hslack, Tolerance.isSmall_eq_decide hsolution]
  constructor
  · intro h
    exact of_decide_eq_true (Bool.and_eq_true_iff.1 (Bool.and_eq_true_iff.1 h).1).1
  · intro hpos
    simp [hpos, hpos.ne', div_nonneg hnonneg hpos.le]

theorem stride_length_of_blocking_eq_none (h : stride? par p x dx length others = .ok stride)
    (hnone : stride.blocking = none) : stride.length = 1 := by
  unfold stride? at h
  split at h
  · obtain rfl := Except.ok.inj h
    rfl
  · obtain ⟨slacks, -, h⟩ := Checked.bind_eq_ok_iff.1 h
    obtain ⟨growths, -, h⟩ := Checked.bind_eq_ok_iff.1 h
    obtain rfl := Except.ok.inj h
    exact Selection.bound_eq_of_choice_eq_none (Option.map_eq_none_iff.1 hnone)

/-- An inequality that limits a move grows along it. -/
theorem lhs_pos_of_blocking_eq_some (h : stride? par p x dx length others = .ok stride) {i : ℕ}
    (hsome : stride.blocking = some i) : 0 < p.ai.lhs i dx.entry := by
  unfold stride? at h
  split at h
  · obtain rfl := Except.ok.inj h
    cases hsome
  · obtain ⟨slacks, -, h⟩ := Checked.bind_eq_ok_iff.1 h
    obtain ⟨growths, hgrowths, h⟩ := Checked.bind_eq_ok_iff.1 h
    obtain rfl := Except.ok.inj h
    obtain ⟨k, hk, rfl⟩ := Option.map_eq_some_iff.1 hsome
    obtain ⟨hmem, hlimits⟩ := Selection.mem_of_choice_least hk
    rw [limitsStep, Bool.and_eq_true, Bool.and_eq_true] at hlimits
    rw [← (entry_bodies hgrowths).2 k (List.mem_range.1 hmem)]
    exact of_decide_eq_true hlimits.1.1

theorem mem_of_blocking_eq_some {α : Type} [Scalar α] {par : Params α} {p : QuadraticProgram α}
    {x dx : Vec α} {length : α} {stride : Stride α}
    (h : stride? par p x dx length others = .ok stride) {i : ℕ}
    (hsome : stride.blocking = some i) : i ∈ others := by
  unfold stride? at h
  split at h
  · obtain rfl := Except.ok.inj h
    cases hsome
  · obtain ⟨slacks, -, h⟩ := Checked.bind_eq_ok_iff.1 h
    obtain ⟨growths, -, h⟩ := Checked.bind_eq_ok_iff.1 h
    obtain rfl := Except.ok.inj h
    obtain ⟨k, hk, rfl⟩ := Option.map_eq_some_iff.1 hsome
    exact getD_mem (List.mem_range.1 (Selection.mem_of_choice_least hk).1)

end Stride

/-! ## Exchanges -/

section Exchange

variable {s : State K}

/-- If no violated inequality is found, those that are violated are within the tolerance. -/
theorem differ_of_mostViolated_eq_none [IsStrictOrderedRing K]
    (h : mostViolated? par p s = .ok none) {i : ℕ} (hi : i ∈ s.working.others)
    (hviolated : p.bound i < p.ai.lhs i s.x.entry) :
    par.slack.differ (p.bound i) (p.ai.lhs i s.x.entry) = false := by
  obtain ⟨slacks, hslacks, h⟩ := Checked.bind_eq_ok_iff.1 h
  have hnone := Option.map_eq_none_iff.1 (Except.ok.inj h)
  obtain ⟨k, hk, rfl⟩ := exists_getD_eq hi
  have hslack := entry_slacks hslacks hk
  by_contra hdiffer
  have hallow :
      outOfTolerance par (p.bound (s.working.others.getD k 0)) (slacks.entry k) = true := by
    rw [outOfTolerance, hslack, sub_sub_cancel]
    exact Bool.eq_true_of_not_eq_false hdiffer
  have hle := Selection.le_value_of_choice_eq_none hnone (List.mem_range.2 hk) hallow
  rw [hslack] at hle
  linarith

/-- Nothing is to join only if nothing outside of the working set limited the last step. -/
theorem joining_eq_none (h : joining? par p s = .ok none) :
    (∀ i, s.blocking = some i → s.working.contains i = true) ∧
      mostViolated? par p s = .ok none := by
  unfold joining? at h
  split at h
  · next i hblocking =>
    obtain ⟨member, hmember, h⟩ := Checked.bind_eq_ok_iff.1 h
    obtain ⟨-, rfl⟩ := guarded_eq_ok_iff.1 hmember
    split at h
    · next hcontains =>
      refine ⟨fun j hj => ?_, h⟩
      obtain rfl := Option.some.inj (hblocking.symm.trans hj)
      exact hcontains
    · cases h
  · next hblocking =>
    refine ⟨fun j hj => ?_, h⟩
    rw [hblocking] at hj
    cases hj

/-- If no inequality is to leave, no multiplier of the working set is negative but within the
tolerance. -/
theorem sign_of_leaving_eq_none (h : leaving par p s = none) {i : ℕ} (hi : i ∈ s.working.members) :
    0 ≤ s.multipliers.entry (p.me + i) ∨
      par.solution.isZero (s.multipliers.entry (p.me + i)) = true := by
  by_cases hzero : par.solution.isZero (s.multipliers.entry (p.me + i)) = true
  · exact Or.inr hzero
  · refine Or.inl (Selection.le_value_of_choice_eq_none h hi ?_)
    rw [Bool.eq_false_of_not_eq_true hzero]
    rfl

end Exchange

end ActiveSet

end QuadProg
