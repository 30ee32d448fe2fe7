import QuadProg.Proofs.ActiveSet.Shape

/-!
# Retries

An iteration whose subproblem has no solution drops an inequality and tries again, as often as it
may. What the drops of one iteration can do is stated against the state before it: which
inequalities left and in which order, and how the iteration ended once they had. The drops change
neither the point nor what decides whether a subproblem has a solution, so that one more drop in
front keeps this form; the iteration follows by induction on the retries. Nothing is assumed about
the scalars.
-/

namespace QuadProg

/-- The magnitudes of numbers can be ordered. A value that differs from itself is not a number. -/
class Scalar.MagnitudeLaws (α : Type) [Scalar α] : Prop where
  zero_le : ∀ u : α, (u == u) = true → 0 ≤ abs u
  total : ∀ u v : α, (u == u) = true → (v == v) = true → abs u ≤ abs v ∨ abs v ≤ abs u
  trans : ∀ u v w : α, abs u ≤ abs v → abs v ≤ abs w → abs u ≤ abs w

theorem Scalar.MagnitudeLaws.refl {α : Type} [Scalar α] [Scalar.MagnitudeLaws α] {u : α}
    (h : (u == u) = true) : abs u ≤ abs u :=
  (total u u h h).elim id id

instance {K : Type} [Field K] [LinearOrder K] [IsStrictOrderedRing K] [Exact K] :
    Scalar.MagnitudeLaws K :=
  ⟨fun u _ => abs_nonneg u, fun u v _ _ => le_total |u| |v|, fun _ _ _ => le_trans⟩

instance : Scalar.MagnitudeLaws Lossy where
  zero_le u hu := by
    cases u with
    | nan => cases hu
    | num a => exact decide_eq_true (abs_nonneg a)
  total u v hu hv := by
    cases u with
    | nan => cases hu
    | num a =>
      cases v with
      | nan => cases hv
      | num b => exact (le_total |a| |b|).imp decide_eq_true decide_eq_true
  trans u v w huv hvw := by
    cases u with
    | nan => cases huv
    | num a =>
      cases v with
      | nan => cases huv
      | num b =>
        cases w with
        | nan => cases hvw
        | num c => exact decide_eq_true (le_trans (of_decide_eq_true huv) (of_decide_eq_true hvw))

/-- The factors of a matrix do not depend on those of the matrix given before. -/
theorem LU.compute?_congr {α : Type} [Scalar α] {f g : LU α} (h : f.threshold = g.threshold)
    (a : Mat α) : f.compute? a = g.compute? a := by
  unfold LU.compute? LU.compute
  rw [h]

namespace ActiveSet

variable {α : Type} [Scalar α]
variable {par : Params α} {p : QuadraticProgram α} {s s₁ s' : State α}
variable {me i : ℕ} {w w' : WorkingSet} {dropped : List ℕ}

/-! ## The heaviest multiplier -/

/-- The magnitude of the multiplier of the inequality `i`. -/
def State.magnitude (s : State α) (me i : ℕ) : α := Scalar.abs (s.multipliers.entry (me + i))

/-- The multipliers of the listed inequalities are numbers. -/
def State.HasNumbers (s : State α) (me : ℕ) (members : List ℕ) : Prop :=
  ∀ i ∈ members, (s.multipliers.entry (me + i) == s.multipliers.entry (me + i)) = true

/-- Of the listed inequalities `i` has the multiplier of the largest magnitude, and it is the last
one that has it. -/
structure IsHeaviest (s : State α) (me : ℕ) (members : List ℕ) (i : ℕ) : Prop where
  mem : i ∈ members
  largest : ∀ j ∈ members, s.magnitude me j ≤ s.magnitude me i
  last : ∀ j ∈ members, s.magnitude me i ≤ s.magnitude me j → j ≤ i

section Numbers

variable [Scalar.MagnitudeLaws α] {seen rest : List ℕ} {best : ℕ}

/-- A scan that knows the heaviest of the inequalities seen so far knows it after one more, provided
that the indices ascend. -/
theorem IsHeaviest.heavier (h : IsHeaviest s me seen best) (hlt : ∀ j ∈ seen, j < i)
    (hnumbers : s.HasNumbers me (seen ++ [i])) :
    ∃ best', s.heavier me (best, s.magnitude me best) i = (best', s.magnitude me best') ∧
      IsHeaviest s me (seen ++ [i]) best' := by
  have hi : i ∈ seen ++ [i] := List.mem_append_right _ List.mem_cons_self
  have hbest : best ∈ seen ++ [i] := List.mem_append_left _ h.mem
  have hself : s.magnitude me i ≤ s.magnitude me i := Scalar.MagnitudeLaws.refl (hnumbers i hi)
  by_cases hle : s.magnitude me best ≤ s.magnitude me i
  · refine ⟨i, if_pos hle, hi, ?_, ?_⟩
    · intro j hj
      rcases List.mem_append.1 hj with hj | hj
      · exact Scalar.MagnitudeLaws.trans _ _ _ (h.largest j hj) hle
      · rwa [List.mem_singleton.1 hj]
    · intro j hj _
      rcases List.mem_append.1 hj with hj | hj
      · exact (hlt j hj).le
      · exact (List.mem_singleton.1 hj).le
  · have hge : s.magnitude me i ≤ s.magnitude me best :=
      (Scalar.MagnitudeLaws.total _ _ (hnumbers best hbest) (hnumbers i hi)).resolve_left hle
    refine ⟨best, if_neg hle, hbest, ?_, ?_⟩
    · intro j hj
      rcases List.mem_append.1 hj with hj | hj
      · exact h.largest j hj
      · rwa [List.mem_singleton.1 hj]
    · intro j hj hge'
      rcases List.mem_append.1 hj with hj | hj
      · exact h.last j hj hge'
      · rw [List.mem_singleton.1 hj] at hge'
        exact absurd hge' hle

theorem IsHeaviest.foldl (h : IsHeaviest s me seen best)
    (hsorted : (seen ++ rest).Pairwise (· < ·)) (hnumbers : s.HasNumbers me (seen ++ rest)) :
    IsHeaviest s me (seen ++ rest)
      (rest.foldl (s.heavier me) (best, s.magnitude me best)).1 := by
  induction rest generalizing seen best with
  | nil => rwa [List.append_nil]
  | cons i rest ih =>
    rw [← List.singleton_append, ← List.append_assoc] at hsorted hnumbers ⊢
    have hlt : ∀ j ∈ seen, j < i := fun j hj =>
      (List.pairwise_append.1 (List.pairwise_append.1 hsorted).1).2.2 j hj i List.mem_cons_self
    obtain ⟨best', hstep, h'⟩ :=
      h.heavier hlt fun j hj => hnumbers j (List.mem_append_left _ hj)
    rw [List.singleton_append, List.foldl_cons, hstep]
    exact ih h' hsorted hnumbers

/-- Among numbers the member that is dropped is the heaviest one. -/
theorem isHeaviest_of_heaviest (hnumbers : s.HasNumbers me s.working.members)
    (h : s.heaviest me = some i) : IsHeaviest s me s.working.members i := by
  unfold State.heaviest at h
  cases hlist : s.working.members with
  | nil =>
    rw [hlist] at h
    cases h
  | cons first rest =>
    have hsorted : (first :: rest).Pairwise (· < ·) := hlist ▸ s.working.sorted_members
    rw [hlist] at h hnumbers
    have hfirst := hnumbers first List.mem_cons_self
    have hself : s.magnitude me first ≤ s.magnitude me first := Scalar.MagnitudeLaws.refl hfirst
    have hsingle : IsHeaviest s me [first] first := by
      refine ⟨List.mem_cons_self, ?_, ?_⟩
      · intro j hj
        rwa [List.mem_singleton.1 hj]
      · intro j hj _
        exact (List.mem_singleton.1 hj).le
    -- The scan starts from zero, which no magnitude of a number undercuts.
    have hstart : s.heavier me (first, 0) first = (first, s.magnitude me first) :=
      if_pos (Scalar.MagnitudeLaws.zero_le _ hfirst)
    obtain rfl := Option.some.inj h
    rw [List.foldl_cons, hstart]
    exact hsingle.foldl hsorted hnumbers

end Numbers

/-! ## Subproblems that have a solution -/

omit [Scalar α] in
theorem Inherits.symm (h : Inherits s s₁) : Inherits s₁ s :=
  ⟨h.count.symm, h.cholesky.symm, h.minimizer.symm, h.threshold.symm⟩

theorem solveByKkt?_congr {lu lu' : LU α} (h : lu'.threshold = lu.threshold) (a b : Mat α) :
    solveByKkt? p lu' a b = solveByKkt? p lu a b := by
  unfold solveByKkt?
  simp only [LU.compute?_congr h]

theorem Inherits.solveBySchur_eq (h : Inherits s s₁) (a b : Mat α) :
    solveBySchur? p s₁ a b = solveBySchur? p s a b := by
  unfold solveBySchur? minimizer?
  simp only [LU.compute?_congr h.threshold, h.cholesky, h.minimizer]

/-- The solution of a subproblem depends on what the state keeps of the program only. -/
theorem Inherits.subproblem_target (h : Inherits s s₁) {active : List ℕ} {outcome : Attempt α}
    (hsolved : subproblem? p s active = .ok outcome) :
    ∃ outcome', subproblem? p s₁ active = .ok outcome' ∧ outcome'.target = outcome.target := by
  obtain ⟨a, ha, hsolved⟩ := Checked.bind_eq_ok_iff.1 hsolved
  obtain ⟨b, hb, hsolved⟩ := Checked.bind_eq_ok_iff.1 hsolved
  unfold subproblem?
  dsimp only
  rw [ha, hb, h.cholesky]
  simp only [bind, Except.bind]
  split at hsolved
  · next hroute =>
    rw [if_pos hroute]
    split at hsolved
    · next hzero =>
      obtain ⟨x, hx, hsolved⟩ := Checked.bind_eq_ok_iff.1 hsolved
      obtain rfl := Except.ok.inj hsolved
      rw [if_pos hzero, hx]
      exact ⟨_, rfl, rfl⟩
    · next hzero =>
      rw [if_neg hzero, h.solveBySchur_eq]
      exact ⟨outcome, hsolved, rfl⟩
  · next hroute =>
    rw [if_neg hroute, solveByKkt?_congr h.threshold]
    exact ⟨outcome, hsolved, rfl⟩

/-- The subproblem of the working set `w` has the solution `target`, or none, by what the state `s`
keeps of the program. -/
def Yields (p : QuadraticProgram α) (s : State α) (w : WorkingSet) (target : Option (Target α)) :
    Prop :=
  ∃ outcome, subproblem? p s w.members = .ok outcome ∧ outcome.target = target

theorem Yields.inherits {target : Option (Target α)} (h : Yields p s w target)
    (hs : Inherits s s₁) : Yields p s₁ w target := by
  obtain ⟨outcome, hsolved, htarget⟩ := h
  obtain ⟨outcome', hsolved', hsame⟩ := hs.subproblem_target hsolved
  exact ⟨outcome', hsolved', hsame.trans htarget⟩

/-! ## A sequence of drops -/

/-- The inequalities `dropped` leave the working set `w` in this order and `w'` remains. Each one
leaves because the subproblem of the members so far has no solution. It is the heaviest of them if
their multipliers are numbers. -/
inductive Drops (p : QuadraticProgram α) (s : State α) : WorkingSet → List ℕ → WorkingSet → Prop
  | nil {w : WorkingSet} : Drops p s w [] w
  | cons {w w' : WorkingSet} {i : ℕ} {dropped : List ℕ} (mem : i ∈ w.members)
      (unsolvable : Yields p s w none)
      (heaviest : ∀ [Scalar.MagnitudeLaws α], s.HasNumbers p.me w.members →
        IsHeaviest s p.me w.members i)
      (rest : Drops p s (w.erase i) dropped w') : Drops p s w (i :: dropped) w'

theorem mem_of_mem_erase {j : ℕ} (h : j ∈ (w.erase i).members) : j ∈ w.members ∧ i ≠ j := by
  rw [WorkingSet.mem_members, WorkingSet.contains_erase, Bool.and_eq_true,
    decide_eq_true_iff] at h
  exact ⟨WorkingSet.mem_members.2 h.1, h.2⟩

theorem Drops.subset (h : Drops p s w dropped w') : ∀ j ∈ w'.members, j ∈ w.members := by
  induction h with
  | nil => exact fun _ hj => hj
  | cons mem unsolvable heaviest rest ih => exact fun j hj => (mem_of_mem_erase (ih j hj)).1

theorem Drops.count (h : Drops p s w dropped w') :
    w'.members.length + dropped.length = w.members.length := by
  induction h with
  | nil => rfl
  | cons mem unsolvable heaviest rest ih =>
    have hlength :=
      (WorkingSet.members_perm_erase (WorkingSet.mem_members.1 mem)).length_eq
    rw [List.length_cons] at hlength ⊢
    omega

/-- What one state says of a sequence of drops, another one says too if it keeps the same of the
program and has the same multipliers of the members. -/
theorem Drops.inherits (h : Drops p s₁ w dropped w') (hs : Inherits s₁ s)
    (hmultipliers : ∀ j ∈ w.members,
      s.multipliers.entry (p.me + j) = s₁.multipliers.entry (p.me + j)) :
    Drops p s w dropped w' := by
  induction h with
  | nil => exact .nil
  | @cons w w' i dropped mem unsolvable heaviest rest ih =>
    have hmagnitude : ∀ j ∈ w.members, s.magnitude p.me j = s₁.magnitude p.me j := fun j hj =>
      congrArg Scalar.abs (hmultipliers j hj)
    refine .cons mem (unsolvable.inherits hs) (fun hnumbers => ?_)
      (ih fun j hj => hmultipliers j (mem_of_mem_erase hj).1)
    have hheaviest := heaviest fun j hj => hmultipliers j hj ▸ hnumbers j hj
    refine ⟨mem, fun j hj => ?_, fun j hj hle => ?_⟩
    · rw [hmagnitude j hj, hmagnitude i mem]
      exact hheaviest.largest j hj
    · rw [hmagnitude j hj, hmagnitude i mem] at hle
      exact hheaviest.last j hj hle

/-- The multipliers `l'` are `l` with those of the inequalities `dropped` cleared. -/
structure Cleared (me : ℕ) (dropped : List ℕ) (l l' : Vec α) : Prop where
  size : l'.size = l.size
  zero : ∀ i ∈ dropped, l'.entry (me + i) = 0
  other : ∀ k, (∀ i ∈ dropped, me + i ≠ k) → l'.entry k = l.entry k

theorem Cleared.nil (me : ℕ) (l : Vec α) : Cleared me [] l l :=
  ⟨rfl, fun _ hi => (nomatch hi), fun _ _ => rfl⟩

theorem Cleared.cons {l l' : Vec α} (h : Cleared me dropped (l.setIfInBounds (me + i) 0) l') :
    Cleared me (i :: dropped) l l' := by
  refine ⟨h.size.trans Array.size_setIfInBounds, fun j hj => ?_, fun k hk => ?_⟩
  · by_cases hrest : j ∈ dropped
    · exact h.zero j hrest
    · obtain rfl := (List.mem_cons.1 hj).resolve_right hrest
      have hother : ∀ k ∈ dropped, me + k ≠ me + j := by
        intro k hk heq
        obtain rfl := Nat.add_left_cancel heq
        exact hrest hk
      rw [h.other _ hother]
      have hmem : ∃ i ∈ [j], me + i = me + j := ⟨j, List.mem_cons_self, rfl⟩
      exact entry_foldl_clear (Or.inr hmem)
  · rw [h.other k fun j hj => hk j (List.mem_cons_of_mem _ hj), Vec.entry_setIfInBounds,
      if_neg fun heq => hk i List.mem_cons_self heq.1]

/-! ## The end of an iteration -/

/-- How an iteration from the state `s` that may drop `retries` inequalities ends in the state `s'`
once `dropped` have left. -/
inductive Ending (par : Params α) (p : QuadraticProgram α) (retries : ℕ) (s : State α)
    (dropped : List ℕ) (s' : State α) : Prop
  /-- A step is taken, and outside of the working set there are no multipliers. -/
  | stepped (target : Target α) (solvable : Yields p s s'.working (some target))
      (zero_others : ∀ i, i ∉ s'.working.members → s'.multipliers.entry (p.me + i) = 0)
      (status : s'.status = .feasible ∧ s'.x = s.x ∨ s'.status = .approximate)
  /-- No more inequalities may be dropped. -/
  | failed (unsolvable : Yields p s s'.working none) (nonempty : s'.working.members ≠ [])
      (all : dropped.length = retries) (status : s'.status = .failed) (x : s'.x = s.x)
      (cleared : Cleared p.me dropped s.multipliers s'.multipliers)
  /-- No inequality is left to be dropped, and the point is tested. -/
  | emptied (unsolvable : Yields p s s'.working none) (empty : s'.working.members = [])
      (feasible : Bool) (test : isFeasible? par p s.x = .ok feasible)
      (status : s'.status = if feasible then .feasible else .infeasible) (x : s'.x = s.x)
      (cleared : Cleared p.me dropped s.multipliers s'.multipliers)

/-- The end of an iteration is the same for a state with the same point that keeps the same of the
program, up to what was dropped in between. -/
theorem Ending.inherits {retries retries' : ℕ} {dropped' : List ℕ}
    (h : Ending par p retries s₁ dropped s') (hs : Inherits s₁ s) (hx : s₁.x = s.x)
    (hcleared : ∀ l, Cleared p.me dropped s₁.multipliers l → Cleared p.me dropped' s.multipliers l)
    (hall : dropped.length = retries → dropped'.length = retries') :
    Ending par p retries' s dropped' s' := by
  cases h with
  | stepped target solvable zero_others status =>
    exact .stepped target (solvable.inherits hs) zero_others (hx ▸ status)
  | failed unsolvable nonempty all status x cleared =>
    exact .failed (unsolvable.inherits hs) nonempty (hall all) status (x.trans hx)
      (hcleared _ cleared)
  | emptied unsolvable empty feasible test status x cleared =>
    exact .emptied (unsolvable.inherits hs) empty feasible (hx ▸ test) status (x.trans hx)
      (hcleared _ cleared)

/-- An attempt that drops nothing keeps the working set. -/
theorem Attempted.ending {retries : ℕ} (h : Attempted par p s s')
    (hfailed : s'.status = .failed → retries = 0 ∧ Yields p s s.working none) :
    s'.working = s.working ∧ Ending par p retries s [] s' := by
  cases h with
  | stepped outcome target stage solved found step =>
    have hsolvable : Yields p s s.working (some target) := ⟨outcome, solved, found⟩
    obtain ⟨-, -, ⟨-, hstate⟩ | ⟨-, stride, -, hstate⟩⟩ := takeStep_cases step
    · rw [hstate]
      exact ⟨rfl, .stepped target hsolvable (fun _ hi => entry_spread_of_notMem hi)
        (Or.inl ⟨rfl, rfl⟩)⟩
    · rw [hstate]
      exact ⟨rfl, .stepped target hsolvable (fun _ hi => entry_spread_of_notMem hi) (Or.inr rfl)⟩
  | stuck outcome feasible solved unsolvable empty test =>
    exact ⟨rfl, .emptied ⟨outcome, solved, unsolvable⟩ empty feasible test rfl rfl
      (Cleared.nil p.me s.multipliers)⟩
  | exhausted outcome solved nonempty =>
    obtain ⟨rfl, hunsolvable⟩ := hfailed rfl
    exact ⟨rfl, .failed hunsolvable nonempty rfl rfl rfl (Cleared.nil p.me s.multipliers)⟩

/-- One more drop in front of a sequence of drops: the heaviest member leaves the working set, and
its multiplier is cleared. -/
theorem Dropped.drops {outcome : Attempt α} (h : Dropped p s outcome s₁)
    (hdrops : Drops p s₁ s₁.working dropped w') :
    ∃ i, Drops p s s.working (i :: dropped) w' ∧
      ∀ l, Cleared p.me dropped s₁.multipliers l → Cleared p.me (i :: dropped) s.multipliers l := by
  obtain ⟨i, hi, hheaviest⟩ := heaviest_spec s p.me h.nonempty
  have hinherits : Inherits s₁ s := h.shrunk.inherits.symm
  obtain ⟨-, hdrop⟩ := guarded_eq_ok_iff.1 h.shrink
  have hlu : State.heaviest { s with lu := outcome.lu } p.me = some i := hheaviest
  rw [State.shrink, hlu] at hdrop
  have hworking : s₁.working = s.working.erase i := by rw [← hdrop]; rfl
  have hmultipliers : s₁.multipliers = s.multipliers.setIfInBounds (p.me + i) 0 := by
    rw [← hdrop]
    rfl
  refine ⟨i, .cons hi ⟨outcome, h.solved, h.unsolvable⟩
    (fun hnumbers => isHeaviest_of_heaviest hnumbers hheaviest) ?_, ?_⟩
  · rw [← hworking]
    refine hdrops.inherits hinherits fun j hj => ?_
    -- The multiplier that was cleared is that of an inequality that is no member any more.
    have hne : i ≠ j := (mem_of_mem_erase (hworking ▸ hj)).2
    rw [hmultipliers, Vec.entry_setIfInBounds, if_neg fun heq => hne (Nat.add_left_cancel heq.1)]
  · intro l hcleared
    rw [hmultipliers] at hcleared
    exact hcleared.cons

/-- An iteration drops some inequalities, at most as many as it may, and then ends. -/
theorem drops_of_attempt {retries : ℕ} {stage : Stage α}
    (h : attempt? par p retries s = .ok stage) :
    ∃ dropped, Drops p s s.working dropped stage.state.working ∧ dropped.length ≤ retries ∧
      Ending par p retries s dropped stage.state := by
  induction retries generalizing s stage with
  | zero =>
    rcases attempt_step h with ⟨hend, -, hfailed⟩ | ⟨k, outcome, s₁, rest, hk, -⟩
    · obtain ⟨hworking, hend⟩ := hend.ending hfailed
      exact ⟨[], hworking ▸ .nil, le_rfl, hend⟩
    · cases hk
  | succ retries ih =>
    rcases attempt_step h with
      ⟨hend, -, hfailed⟩ | ⟨k, outcome, s₁, rest, hk, hdropped, hrest, hstate, -⟩
    · obtain ⟨hworking, hend⟩ := hend.ending hfailed
      exact ⟨[], hworking ▸ .nil, Nat.zero_le _, hend⟩
    · obtain rfl : retries = k := Nat.succ.inj hk
      -- The rest is told of the state after the first drop and carried over to the one before.
      obtain ⟨dropped, hdrops, hfew, hend⟩ := ih hrest
      obtain ⟨i, hdrops, hcleared⟩ := hdropped.drops hdrops
      rw [hstate]
      exact ⟨i :: dropped, hdrops, Nat.succ_le_succ hfew,
        hend.inherits hdropped.shrunk.inherits.symm hdropped.shrunk.x hcleared
          fun hall => congrArg Nat.succ hall⟩

/-! ## The states of a run -/

/-- The states that a run on the program `p` passes through, between any two of its stages. -/
inductive Visited (par : Params α) (p : QuadraticProgram α) (offer : Option (Solution α)) :
    State α → Prop
  | created : Visited par p offer (State.init p par.zeroThreshold)
  | started : Visited par p offer (start par p).state
  | initialised {stage : Stage α}
      (initialised : initialise? par p offer (start par p).state = .ok stage) :
      Visited par p offer stage.state
  | iterated {s : State α} {moved : Stage α} (visited : Visited par p offer s)
      (iterated : iterate? par p s = .ok moved) : Visited par p offer moved.state
  | counted {s : State α} (visited : Visited par p offer s) : Visited par p offer s.counted
  | exchanged {s : State α} {e : Exchange α} (visited : Visited par p offer s)
      (exchanged : exchange? par p s = .ok e) : Visited par p offer e.state

theorem ready_start (par : Params α) (p : QuadraticProgram α) : Ready p (start par p).state :=
  ⟨(shaped_start par p).toFitting, fun _ hl => (nomatch hl), fun _ hm => (nomatch hm),
    fun _ hi => (nomatch hi)⟩

/-- Whether or not a point is found, the state after the search has all that an iteration needs. -/
theorem ready_of_initialise (hp : p.WellSized) (hme : p.me ≤ p.n) {offer : Option (Solution α)}
    {stage : Stage α} (h : initialise? par p offer (start par p).state = .ok stage) :
    Ready p stage.state := by
  have hfits := ((shaped_start par p).initialised hp hme rfl h).1.toFitting
  obtain ⟨found, hfound, ⟨hfeasible, s', hprepare, rfl⟩ | ⟨-, rfl⟩⟩ := initialise_step h
  · refine ready_initialise hp h hfits ?_
    rw [(samePoint_of_prepare hprepare).status]
    rfl
  · obtain ⟨⟨x, l, hstate⟩, -⟩ := search_state hfound
    refine ⟨hfits, ?_, ?_, ?_⟩
    · intro l hl
      rw [hstate] at hl
      exact (rows_factor hl).trans hp.q_rows
    · intro m hm
      rw [hstate] at hm
      cases hm
    · intro i hi
      rw [hstate] at hi
      cases hi

theorem Visited.ready (hp : p.WellSized) (hme : p.me ≤ p.n) {offer : Option (Solution α)}
    (h : Visited par p offer s) : Ready p s := by
  induction h with
  | created => exact (ready_start par p).withStatus _ _
  | started => exact ready_start par p
  | initialised hstage => exact ready_of_initialise hp hme hstage
  | iterated _ hmoved ih =>
    obtain ⟨moved, hmoved', hready⟩ := ih.iterate_total par hp
    exact Except.ok.inj (hmoved'.symm.trans hmoved) ▸ hready
  | counted _ ih => exact ih.counted_iteration
  | exchanged _ he ih =>
    obtain ⟨e, he', hready⟩ := ih.exchange_total par hp
    exact Except.ok.inj (he'.symm.trans he) ▸ hready

end ActiveSet

namespace QuadraticProgram

open ActiveSet

variable {α : Type} [Scalar α]

/-- What an iteration from the state `s` to the state `s'` did, having dropped the inequalities
`dropped` one after the other. -/
structure Retried (par : Params α) (p : QuadraticProgram α) (s : State α) (dropped : List ℕ)
    (s' : State α) : Prop where
  drops : Drops p s s.working dropped s'.working
  subset : ∀ i ∈ s'.working.members, i ∈ s.working.members
  count : s'.working.members.length + dropped.length = s.working.members.length
  few : dropped.length ≤ min par.maxRetry s.working.members.length
  ending : Ending par p par.maxRetry s dropped s'

/-- An iteration from any state of a run comes to an end, whatever its parameters are. It drops at
most as many inequalities as it may and as there are, the heaviest one first and only where the
subproblem has no solution. Unless it then takes a step, the point stays as it is, and only the
multipliers of the dropped inequalities change, to zero. -/
theorem iteration_retried (par₀ par : Params α) (p : QuadraticProgram α)
    (offer : Option (Solution α)) (hp : p.IsBuilt) (hcheck : p.check par₀.zeroThreshold = .ok ())
    {s : State α} (hs : Visited par₀ p offer s) :
    ∃ moved dropped, iterate? par p s = .ok moved ∧ Retried par p s dropped moved.state := by
  have hsized := hp.wellSized hcheck
  obtain ⟨moved, hmoved, -⟩ :=
    (hs.ready hsized (hsized.me_le_n hcheck)).iterate_total par hsized
  obtain ⟨dropped, hdrops, hfew, hend⟩ := drops_of_attempt hmoved
  -- The iteration starts by forgetting what limited the last step, which nothing here refers to.
  have hinherits : Inherits { s with blocking := none } s := ⟨rfl, rfl, rfl, rfl⟩
  have hdrops : Drops p s s.working dropped moved.state.working :=
    hdrops.inherits hinherits fun _ _ => rfl
  have hcount := hdrops.count
  exact ⟨moved, dropped, hmoved, hdrops, hdrops.subset, hcount, by omega,
    hend.inherits hinherits rfl (fun _ hcleared => hcleared) id⟩

/-- Minimise `(x² + y² + z²) / 2 - 2 x` subject to three times the row `x ≤ 1`. -/
def parallelSample : QuadraticProgram Lossy :=
  ofData ⟨.packed 3, #[.num 1, .num 0, .num 1, .num 0, .num 0, .num 1], rfl⟩
    ⟨.general 3 1, #[.num 2, .num 0, .num 0], rfl⟩ none none
    (some ⟨.general 3 3, #[.num 1, .num 1, .num 1, .num 0, .num 0, .num 0, .num 0, .num 0, .num 0],
      rfl⟩)
    (some ⟨.general 3 1, #[.num 1, .num 1, .num 1], rfl⟩)

/-- All three rows are tight at the start, and the first one has the only multiplier. With one retry
the iteration drops it and fails at the other two; with another retry it drops the last one as well,
of two that are as heavy, and the subproblem of the row in the middle has a solution. -/
theorem iteration_retried_parallelSample :
    let par (retries : ℕ) : Params Lossy := { Params.standard with maxRetry := retries }
    ∃ stage, initialise? .standard parallelSample none (start .standard parallelSample).state =
        .ok stage ∧ stage.state.working.members = [0, 1, 2] ∧
      (∃ moved dropped, iterate? (par 1) parallelSample stage.state = .ok moved ∧
        moved.state.status = .failed ∧ moved.state.working.members = [1, 2] ∧ dropped.length = 1 ∧
        Retried (par 1) parallelSample stage.state dropped moved.state) ∧
      ∃ moved dropped, iterate? (par 2) parallelSample stage.state = .ok moved ∧
        moved.state.status = .feasible ∧ moved.state.working.members = [1] ∧ dropped.length = 2 ∧
        Retried (par 2) parallelSample stage.state dropped moved.state := by
  intro par
  have hrun : (do
      let stage ← initialise? .standard parallelSample none (start .standard parallelSample).state
      let first ← iterate? (par 1) parallelSample stage.state
      let second ← iterate? (par 2) parallelSample stage.state
      return (stage.state.working.members, (first.state.status, first.state.working.members),
        second.state.status, second.state.working.members)) =
          .ok ([0, 1, 2], (.failed, [1, 2]), .feasible, [1]) := by decide +kernel
  obtain ⟨stage, hstage, hrun⟩ := Checked.bind_eq_ok_iff.1 hrun
  obtain ⟨first, hfirst, hrun⟩ := Checked.bind_eq_ok_iff.1 hrun
  obtain ⟨second, hsecond, hrun⟩ := Checked.bind_eq_ok_iff.1 hrun
  simp only [pure, Except.pure, Except.ok.injEq, Prod.mk.injEq] at hrun
  obtain ⟨hmembers, ⟨hstatus₁, hmembers₁⟩, hstatus₂, hmembers₂⟩ := hrun
  have hvisited : Visited .standard parallelSample none stage.state := .initialised hstage
  refine ⟨stage, hstage, hmembers, ?_, ?_⟩
  · obtain ⟨moved, dropped, hmoved, hretried⟩ := iteration_retried .standard (par 1)
      parallelSample none ⟨_, _, _, _, _, _, rfl⟩ rfl hvisited
    obtain rfl := Except.ok.inj (hfirst.symm.trans hmoved)
    have hcount := hretried.count
    rw [hmembers, hmembers₁] at hcount
    exact ⟨first, dropped, hfirst, hstatus₁, hmembers₁, Nat.add_left_cancel hcount, hretried⟩
  · obtain ⟨moved, dropped, hmoved, hretried⟩ := iteration_retried .standard (par 2)
      parallelSample none ⟨_, _, _, _, _, _, rfl⟩ rfl hvisited
    obtain rfl := Except.ok.inj (hsecond.symm.trans hmoved)
    have hcount := hretried.count
    rw [hmembers, hmembers₂] at hcount
    exact ⟨second, dropped, hsecond, hstatus₂, hmembers₂, Nat.add_left_cancel hcount, hretried⟩

end QuadraticProgram

end QuadProg
