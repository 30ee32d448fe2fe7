import QuadProg.Proofs.Tableau.Course

/-!
# Histories of the basis

A tableau is pivoted on rows and columns that its user chooses, and runs are made from it, in any
order. As long as no column is pivoted on that is basic already, the basis and the set of basic
columns agree, also at every pivot of a run, and an artificial variable that has left its row stays
away. So no variable is ever basic in two rows, and the basic solution is written without writing
any coordinate twice. None of this depends on the scalars.
-/

namespace QuadProg

namespace Tableau

variable {α : Type} [Scalar α] {par : Params α} {t u v : Tableau α}

/-! ## What the bookkeeping says of the basis as a list -/

/-- The coordinates that the basic solution is given, row after row, with their values. -/
def writes (t : Tableau α) : List (ℕ × α) :=
  ((List.range t.m).filter fun r => 0 ≤ t.basic r).map fun r => ((t.basic r).toNat, t.rhs r)

omit [Scalar α] in
/-- No two rows have the same basic variable, artificial or not. -/
theorem Bookkept.basic_injective (h : t.Bookkept) {r s : ℕ} (hr : r < t.m) (hs : s < t.m)
    (he : t.basic r = t.basic s) : r = s := by
  by_cases hnn : 0 ≤ t.basic r
  · exact h.injective r hr s hs hnn he
  · -- The number of an artificial variable tells its row.
    have hr' := h.artificial r hr (by omega)
    have hs' := h.artificial s hs (by omega)
    omega

omit [Scalar α] in
theorem Bookkept.nodup_basis (h : t.Bookkept) : t.basis.toList.Nodup := by
  have hlist : t.basis.toList = (List.range t.m).map t.basic := by
    refine List.ext_getElem (by simp [h.size_basis]) fun r hr _ => ?_
    have hsize : r < t.basis.size := by simpa using hr
    simp [basic, Array.getD, hsize]
  rw [hlist]
  exact List.nodup_range.map_on fun r hr s hs he =>
    h.basic_injective (List.mem_range.1 hr) (List.mem_range.1 hs) he

theorem Bookkept.nodup_writes (h : t.Bookkept) : (t.writes.map Prod.fst).Nodup := by
  rw [writes, List.map_map]
  refine (List.nodup_range.filter _).map_on fun r hr s hs he => ?_
  simp only [List.mem_filter, List.mem_range, decide_eq_true_eq] at hr hs
  have htoNat : (t.basic r).toNat = (t.basic s).toNat := he
  exact h.basic_injective hr.1 hs.1 (by omega)

/-- The basic solution is made by these writes. -/
theorem Bookkept.point_eq (h : t.Bookkept) :
    t.point = t.writes.foldl (fun x w => x.setIfInBounds w.1 w.2) (Vec.zeros t.n) := by
  have key : ∀ rows : List ℕ, (∀ r ∈ rows, r < t.m) → ∀ x : Vec α,
      rows.foldl t.placeBasic x =
        ((rows.filter fun r => 0 ≤ t.basic r).map fun r => ((t.basic r).toNat, t.rhs r)).foldl
          (fun x w => x.setIfInBounds w.1 w.2) x := by
    intro rows
    induction rows with
    | nil => intro _ x; rfl
    | cons r rest ih =>
      intro hrows x
      have hr : r < t.basis.size := by rw [h.size_basis]; exact hrows r List.mem_cons_self
      have hbasic : t.basis.getD r (-1) = t.basic r := by simp [basic, Array.getD, hr]
      rw [List.foldl_cons, ih fun s hs => hrows s (List.mem_cons_of_mem _ hs), placeBasic, hbasic]
      by_cases hnn : 0 ≤ t.basic r
      · simp [hnn]
      · simp [hnn]
  exact key _ (fun r hr => List.mem_range.1 hr) _

/-! ## What pivots and runs keep -/

/-- The tableau `u` comes from `t` by pivots: its views of the basis agree, and a row whose basic
variable is not artificial does not get an artificial one again. -/
structure Descends (t u : Tableau α) : Prop where
  bookkept : u.Bookkept
  n_eq : u.n = t.n
  m_eq : u.m = t.m
  structural : ∀ r < t.m, 0 ≤ t.basic r → 0 ≤ u.basic r

omit [Scalar α] in
theorem Bookkept.descends (h : t.Bookkept) : Descends t t := ⟨h, rfl, rfl, fun _ _ h => h⟩

omit [Scalar α] in
theorem Descends.trans (h : Descends t u) (h' : Descends u v) : Descends t v :=
  ⟨h'.bookkept, h'.n_eq.trans h.n_eq, h'.m_eq.trans h.m_eq, fun r hr hnn =>
    h'.structural r (h.m_eq ▸ hr) (h.structural r hr hnn)⟩

omit [Scalar α] in
theorem Descends.agrees (h : Descends t u) (hb : v.Bookkept) (hagrees : Agrees u v) :
    Descends t v := by
  refine ⟨hb, hagrees.n_eq ▸ h.n_eq, hagrees.m_eq ▸ h.m_eq, fun r hr hnn => ?_⟩
  rw [basic, ← hagrees.basis_eq]
  exact h.structural r hr hnn

theorem Descends.pivot (h : Descends t u) {row col : ℕ} (hrow : row < u.m) (hcol : col < u.n)
    (hfree : u.columns.contains col = false) : Descends t (u.pivot row col) := by
  refine ⟨h.bookkept.pivot_of_contains_eq_false hrow hcol hfree, h.n_eq, h.m_eq,
    fun r hr hnn => ?_⟩
  rw [basic_pivot col r (h.bookkept.size_basis ▸ hrow)]
  split
  · exact Int.natCast_nonneg col
  · exact h.structural r hr hnn

theorem Descends.enterPhaseTwo (h : Descends t u) : Descends t (u.enterPhaseTwo par).1 :=
  h.agrees (h.bookkept.enterPhaseTwo par) (agrees_enterPhaseTwo u)

theorem Descends.advance (h : Descends t u) {row col : ℕ}
    (hnext : u.nextPivot par = .ok (row, col)) : Descends t (u.advance row col).1 := by
  obtain ⟨hrow, hcol, hfree⟩ := h.bookkept.of_nextPivot hnext
  exact (h.pivot hrow hcol hfree).agrees (h.bookkept.advance hnext) (agrees_advance u row col)

theorem Descends.tested (h : Descends t u) (fuel : ℕ) : ∀ v ∈ tested par fuel u, Descends t v :=
  forall_mem_tested (Descends t) (fun _ h => h.enterPhaseTwo)
    (fun _ _ _ h hnext => h.advance hnext) fuel h

/-- A run keeps to this up to its end, and at every pivot that is told. -/
theorem Descends.course {fuel : ℕ} {events : List (Event α)} (hcourse : Course par fuel u events v)
    (h : Descends t u) : Descends t v ∧
      ∀ phase row col basis objective, .pivot phase row col basis objective ∈ events →
        ∃ w, Descends t w ∧ w.basis = basis := by
  induction hcourse with
  | stuck _ =>
    exact ⟨h.agrees (h.bookkept.progress _ _ _) ⟨rfl, rfl, rfl, rfl, rfl⟩,
      fun _ _ _ _ _ hmem => absurd hmem Trace.pivot_notMem_transition⟩
  | failed _ =>
    exact ⟨h.agrees (h.bookkept.progress _ _ _) ⟨rfl, rfl, rfl, rfl, rfl⟩,
      fun _ _ _ _ _ hmem => absurd hmem Trace.pivot_notMem_transition⟩
  | limit _ => exact ⟨h, fun _ _ _ _ _ hmem => by cases hmem⟩
  | pivot next rest ih =>
    obtain ⟨hend, hevents⟩ := ih (h.advance next).enterPhaseTwo
    refine ⟨hend, fun phase row col basis objective hmem => ?_⟩
    simp only [List.mem_append, events_advance, heading, events_enterPhaseTwo,
      Trace.pivot_notMem_transition, List.mem_cons, List.not_mem_nil, or_false, false_or,
      reduceCtorEq] at hmem
    rcases hmem with hpivot | hmem
    · -- A pivot is told with the basis that it leads to, before the next test.
      exact ⟨_, h.advance next, (Event.pivot.inj hpivot).2.2.2.1.symm⟩
    · exact hevents _ _ _ _ _ hmem

/-! ## Histories -/

/-- What a user of a tableau does to it: a pivot on a column that is not basic, or a run. -/
inductive Operation : Tableau α → Tableau α → Prop
  | pivot {t u : Tableau α} {row col : ℕ} (free : t.columns.contains col = false)
    (done : t.pivot? row col = .ok u) : Operation t u
  | solve (par : Params α) (t : Tableau α) : Operation t (t.solve par).1

theorem Bookkept.operation (h : t.Bookkept) (hop : Operation t u) : Descends t u := by
  cases hop with
  | pivot free done =>
    obtain ⟨⟨hrow, hcol⟩, rfl⟩ := guarded_eq_ok_iff.1 done
    exact h.descends.pivot hrow hcol free
  | solve par =>
    obtain ⟨events, -, hcourse⟩ := course_run par (par.maxIter - t.iterations) t
    exact (h.descends.enterPhaseTwo.course hcourse).1

theorem Bookkept.operations (h : t.Bookkept) (hops : Relation.ReflTransGen Operation t u) :
    Descends t u := by
  induction hops with
  | refl => exact h.descends
  | tail _ hop ih => exact ih.trans (ih.bookkept.operation hop)

/-- The basis of a tableau and what depends on it. -/
structure Accounted (t : Tableau α) : Prop where
  bookkept : t.Bookkept
  nodup_basis : t.basis.toList.Nodup
  /-- The basic solution is made by writes to different places. -/
  point_eq : t.point = t.writes.foldl (fun x w => x.setIfInBounds w.1 w.2) (Vec.zeros t.n)
  nodup_writes : (t.writes.map Prod.fst).Nodup
  /-- Artificial variables that have left do not come back. -/
  operations : ∀ u, Relation.ReflTransGen Operation t u → Descends t u
  /-- All this holds at each step of a run. -/
  tested : ∀ par : Params α, ∀ u ∈ tested par (par.maxIter - t.iterations) t, Descends t u
  events : ∀ par : Params α, ∀ phase row col basis objective,
    .pivot phase row col basis objective ∈ (t.solve par).2.events →
      basis.toList.Nodup ∧ ∃ u, Descends t u ∧ u.basis = basis

/-- However a tableau has been pivoted and run since it was set up, its basis is accounted for. -/
theorem accounted_of_operations {a b c : Mat α} (hstart : ofStandardForm? a b c = .ok t)
    (hops : Relation.ReflTransGen Operation t u) :
    u.n = a.cols ∧ u.m = a.rows ∧ Accounted u := by
  obtain rfl := eq_of_ofStandardForm? hstart
  have hdesc := (bookkept_ofStandardForm a b c).operations hops
  have h := hdesc.bookkept
  refine ⟨hdesc.n_eq, hdesc.m_eq, h, h.nodup_basis, h.point_eq, h.nodup_writes,
    fun v => h.operations, fun par => h.descends.tested _, ?_⟩
  intro par phase row col basis objective hmem
  obtain ⟨events, hevents, hcourse⟩ := course_run par (par.maxIter - u.iterations) u
  rw [events_solve, hevents, List.mem_append] at hmem
  have hhead : .pivot phase row col basis objective ∉ u.heading par := by
    simp only [heading, events_enterPhaseTwo, List.mem_cons, reduceCtorEq, false_or]
    exact Trace.pivot_notMem_transition
  obtain ⟨w, hw, rfl⟩ := (h.descends.enterPhaseTwo.course hcourse).2 _ _ _ _ _
    (hmem.resolve_left hhead)
  exact ⟨hw.bookkept.nodup_basis, w, hw, rfl⟩

/-- The rows have no numbers as coefficients. A pivot on such an entry, a run that finds no column
to enter and another pivot lead to a basis without artificial variables. -/
theorem accounted_of_operations_sample :
    let a : Mat Lossy := .ofFn (.general 2 2) fun _ _ => .nan
    let b : Mat Lossy := .ofFn (.general 2 1) fun _ _ => .num 1
    let c : Mat Lossy := .ofFn (.general 2 1) fun _ _ => .num (-1)
    ∃ t u, ofStandardForm? a b c = .ok t ∧ Relation.ReflTransGen Operation t u ∧
      u.basis = #[1, 0] ∧ u.n = 2 ∧ u.m = 2 ∧ Accounted u := by
  intro a b c
  have hstart : ofStandardForm? a b c = .ok (ofStandardForm a b c) :=
    ofStandardForm?_eq_ok (by decide +kernel) rfl rfl (by decide +kernel)
  let t₁ := (ofStandardForm a b c).pivot 0 1
  let t₂ := (t₁.solve .standard).1
  have hops : Relation.ReflTransGen Operation (ofStandardForm a b c) (t₂.pivot 1 0) := by
    have hfirst : (ofStandardForm a b c).pivot? 0 1 = .ok t₁ := guarded_eq_ok (by decide +kernel)
    have hsecond : t₂.pivot? 1 0 = .ok (t₂.pivot 1 0) := guarded_eq_ok (by decide +kernel)
    have hstart : Relation.ReflTransGen Operation (ofStandardForm a b c) t₁ :=
      .single (.pivot (by decide +kernel) hfirst)
    exact (hstart.tail (.solve .standard t₁)).tail (.pivot (by decide +kernel) hsecond)
  exact ⟨_, _, hstart, hops, by decide +kernel, accounted_of_operations hstart hops⟩

end Tableau

end QuadProg
