import QuadProg.Proofs.Lossy
import QuadProg.Proofs.Mat.Storage

/-!
# Cells and filling

The positions that a matrix stores are numbered by its cells without gaps and repetitions, so a
write is seen at its own position and, in a packed matrix, at the transposed one, and nowhere else.

A list fills a matrix in the order of a listing of the positions. The `k`-th value of the list goes
to the `k`-th position, so what a position holds in the end is settled by induction on the number of
values that have been written. In a packed matrix two values reach a cell and the later one stays.
-/

namespace QuadProg

namespace Shape

/-! ## Cells -/

/-- The positions of a full matrix and its cells are the same in number. -/
theorem bijOn_index_general (rows cols : ℕ) :
    Set.BijOn (fun p : ℕ × ℕ => (general rows cols).index p.1 p.2) {p | p.1 < rows ∧ p.2 < cols}
      (Set.Iio (rows * cols)) := by
  refine ⟨?_, ?_, ?_⟩
  · intro p hp
    exact index_lt_length (s := general rows cols) hp
  · intro p hp q hq heq
    obtain ⟨hr, hc⟩ := index_injective_general hp.1 hp.2 hq.1 hq.2 heq
    exact Prod.ext hr hc
  · intro i hi
    obtain ⟨r, c, hrc, hindex⟩ := exists_index_eq (s := general rows cols) hi
    exact ⟨(r, c), hrc, hindex⟩

/-- The positions in the upper triangle of a packed matrix and its cells are the same in number. -/
theorem bijOn_index_packed (n : ℕ) :
    Set.BijOn (fun p : ℕ × ℕ => (packed n).index p.1 p.2) {p | p.1 ≤ p.2 ∧ p.2 < n}
      (Set.Iio (n * (n + 1) / 2)) := by
  refine ⟨?_, ?_, ?_⟩
  · intro p hp
    exact index_lt_length (s := packed n) ⟨lt_of_le_of_lt hp.1 hp.2, hp.2⟩
  · intro p hp q hq heq
    have hfirst := getElem?_positions_packed hp.1 hp.2
    have hsecond := getElem?_positions_packed hq.1 hq.2
    rw [show (packed n).index p.1 p.2 = (packed n).index q.1 q.2 from heq, hsecond] at hfirst
    exact (Option.some.inj hfirst).symm
  · intro i hi
    obtain ⟨r, c, ⟨hr, hc⟩, hindex⟩ := exists_index_eq (s := packed n) hi
    rcases le_total r c with hrc | hcr
    · exact ⟨(r, c), ⟨hrc, hc⟩, hindex⟩
    · exact ⟨(c, r), ⟨hcr, hr⟩, (index_packed_comm n c r).trans hindex⟩

/-- The second position is the first one or, in a packed matrix, its transposed one. -/
def Mirrors (s : Shape) (r c r' c' : ℕ) : Prop :=
  r' = r ∧ c' = c ∨ s.isPacked = true ∧ r' = c ∧ c' = r

instance (s : Shape) (r c r' c' : ℕ) : Decidable (s.Mirrors r c r' c') :=
  inferInstanceAs (Decidable (_ ∨ _))

theorem index_eq_iff {s : Shape} {r c r' c' : ℕ} (h : s.Contains r c) (h' : s.Contains r' c') :
    s.index r c = s.index r' c' ↔ s.Mirrors r c r' c' := by
  cases s with
  | general rows cols =>
    have hinj : (general rows cols).index r c = (general rows cols).index r' c' →
        r = r' ∧ c = c' := index_injective_general h.1 h.2 h'.1 h'.2
    constructor
    · intro heq
      obtain ⟨rfl, rfl⟩ := hinj heq
      exact Or.inl ⟨rfl, rfl⟩
    · rintro (⟨rfl, rfl⟩ | ⟨hpacked, -⟩)
      · rfl
      · cases hpacked
  | packed n =>
    have hinj := (bijOn_index_packed n).injOn
    constructor
    · intro heq
      -- Both positions are moved to the upper triangle, where a cell has one position.
      have hsorted : ∀ {r c : ℕ}, (packed n).Contains r c →
          (packed n).index (min r c) (max r c) = (packed n).index r c := by
        intro r c _
        rcases le_total r c with hrc | hcr
        · rw [min_eq_left hrc, max_eq_right hrc]
        · rw [min_eq_right hcr, max_eq_left hcr, index_packed_comm]
      have hupper : (min r c, max r c) = (min r' c', max r' c') :=
        hinj ⟨min_le_max, max_lt h.1 h.2⟩ ⟨min_le_max, max_lt h'.1 h'.2⟩
          ((hsorted h).trans (heq.trans (hsorted h').symm))
      have hmin : min r c = min r' c' := congrArg Prod.fst hupper
      have hmax : max r c = max r' c' := congrArg Prod.snd hupper
      have hsame : r' = r ∧ c' = c ∨ r' = c ∧ c' = r := by omega
      exact hsame.imp_right fun hswap => ⟨rfl, hswap⟩
    · rintro (⟨rfl, rfl⟩ | ⟨-, rfl, rfl⟩)
      · rfl
      · exact index_packed_comm n _ _

/-- A listing numbers its pairs by rows of the length of the inner range. -/
theorem listing_eq_map_range {β : Type} (outer inner : ℕ) (f : ℕ → ℕ → β) :
    listing outer inner f =
      (List.range (outer * inner)).map fun k => f (k / inner) (k % inner) := by
  induction outer with
  | zero => simp [listing_eq_flatMap]
  | succ n ih =>
    have hlast : (List.range inner).map (f n) =
        ((List.range inner).map (n * inner + ·)).map fun k => f (k / inner) (k % inner) := by
      rw [List.map_map]
      refine List.map_congr_left fun j hj => ?_
      have hj : j < inner := List.mem_range.1 hj
      have hpos : 0 < inner := by omega
      rw [Function.comp_apply, Nat.mul_comm n inner, Nat.mul_add_div hpos, Nat.div_eq_of_lt hj,
        Nat.mul_add_mod, Nat.mod_eq_of_lt hj, Nat.add_zero]
    have hsucc : listing (n + 1) inner f = listing n inner f ++ (List.range inner).map (f n) := by
      simp [listing_eq_flatMap, List.range_succ]
    rw [hsucc, ih, hlast, Nat.succ_mul, List.range_add, List.map_append]

end Shape

namespace Mat

variable {α : Type}

/-! ## One write -/

section Write

variable [Scalar α]

/-- A write is read back at its position and at the mirrored one, and changes no other entry. -/
theorem get_set {a : Mat α} {r c r' c' : ℕ} (h : a.shape.Contains r c)
    (h' : a.shape.Contains r' c') (v : α) :
    (a.set r c v).get r' c' = if a.shape.Mirrors r c r' c' then v else a.get r' c' := by
  by_cases hcell : a.shape.index r c = a.shape.index r' c'
  · rw [if_pos ((Shape.index_eq_iff h h').1 hcell)]
    calc (a.set r c v).get r' c' = (a.set r c v).get r c := by
          rw [get_eq_cell (by simpa using h'), get_eq_cell (by simpa using h), shape_set, hcell]
      _ = v := get_set_self h
  · rw [if_neg (mt (Shape.index_eq_iff h h').2 hcell), get_set_of_index_ne hcell]

omit [Scalar α] in
/-- In a packed matrix a position and the transposed one are written alike. -/
theorem set_comm_of_packed {a : Mat α} {n : ℕ} (h : a.shape = .packed n) (r c : ℕ) (v : α) :
    a.set r c v = a.set c r v := by
  have hcontains : a.shape.Contains r c ↔ a.shape.Contains c r := by
    rw [h]
    exact And.comm
  have hindex : a.shape.index r c = a.shape.index c r := by
    rw [h]
    exact Shape.index_packed_comm n r c
  simp only [set, hcontains, hindex]

/-- A write and the transposed write into the transposed matrix agree. -/
theorem transpose_set {a : Mat α} {rows cols : ℕ} (h : a.shape = .general rows cols) (r c : ℕ)
    (v : α) : (a.set r c v).transpose = a.transpose.set c r v := by
  have htransposed : a.transpose.shape = .general cols rows := by
    simp [transpose, Mat.rows, Mat.cols, h, Shape.rows, Shape.cols]
  by_cases hrc : a.shape.Contains r c
  · have hcr : a.transpose.shape.Contains c r := by
      rw [h] at hrc
      rw [htransposed]
      exact ⟨hrc.2, hrc.1⟩
    refine ext_get (by simp [transpose, Mat.rows, Mat.cols]) fun i j hij => ?_
    have hij : j < rows ∧ i < cols := by
      simp only [transpose, shape_ofFn, Mat.rows, Mat.cols, shape_set, h] at hij
      exact ⟨hij.2, hij.1⟩
    rw [get_transpose, get_set hrc (by rw [h]; exact hij),
      get_set hcr (by rw [htransposed]; exact hij.symm), get_transpose]
    simp only [Shape.Mirrors, h, htransposed, Shape.isPacked, Bool.false_eq_true, false_and,
      or_false, and_comm]
  · have hcr : ¬ a.transpose.shape.Contains c r := by
      rw [h] at hrc
      rw [htransposed]
      exact fun hcr => hrc ⟨hcr.2, hcr.1⟩
    rw [set, if_neg hrc, set, if_neg hcr]

end Write

/-! ## Listings of positions -/

@[simp] theorem shape_fill (a : Mat α) (positions : List (ℕ × ℕ)) (values : List α) :
    (a.fill positions values).shape = a.shape := by
  have key : ∀ (pairs : List ((ℕ × ℕ) × α)) (b : Mat α),
      (pairs.foldl (fun b pv => b.set pv.1.1 pv.1.2 pv.2) b).shape = b.shape := by
    intro pairs
    induction pairs with
    | nil => exact fun b => rfl
    | cons pv rest ih => exact fun b => (ih _).trans (shape_set b _ _ _)
  exact key _ a

/-- The positions behind the first ones are filled from what these leave of the list. -/
theorem fill_append (a : Mat α) (ps qs : List (ℕ × ℕ)) (values : List α) :
    a.fill (ps ++ qs) values = (a.fill ps values).fill qs (values.drop ps.length) := by
  induction ps generalizing a values with
  | nil => simp [fill]
  | cons p ps ih =>
    cases values with
    | nil => simp [fill]
    | cons v values => exact ih (a.set p.1 p.2 v) values

/-- One position more takes one value more, if there is one. -/
theorem fill_concat (a : Mat α) (ps : List (ℕ × ℕ)) (p : ℕ × ℕ) (values : List α) :
    a.fill (ps ++ [p]) values =
      match values[ps.length]? with
      | some v => (a.fill ps values).set p.1 p.2 v
      | none => a.fill ps values := by
  rw [fill_append]
  cases hv : values[ps.length]? with
  | none => simp [fill, List.drop_eq_nil_of_le (List.getElem?_eq_none_iff.1 hv)]
  | some v =>
    obtain ⟨hlt, rfl⟩ := List.getElem?_eq_some_iff.1 hv
    rw [List.drop_eq_getElem_cons hlt]
    rfl

theorem fill_range_succ (a : Mat α) (position : ℕ → ℕ × ℕ) (values : List α) (m : ℕ) :
    a.fill ((List.range (m + 1)).map position) values =
      match values[m]? with
      | some v =>
        (a.fill ((List.range m).map position) values).set (position m).1 (position m).2 v
      | none => a.fill ((List.range m).map position) values := by
  rw [List.range_succ, List.map_append, List.map_singleton, fill_concat, List.length_map,
    List.length_range]

/-- A packed matrix is filled alike through the transposed positions. -/
theorem fill_map_swap {a : Mat α} {n : ℕ} (h : a.shape = .packed n) (ps : List (ℕ × ℕ))
    (values : List α) : a.fill (ps.map Prod.swap) values = a.fill ps values := by
  induction ps generalizing a values with
  | nil => rfl
  | cons p ps ih =>
    cases values with
    | nil => simp [fill]
    | cons v values =>
      have hset : a.set p.2 p.1 v = a.set p.1 p.2 v := set_comm_of_packed h p.2 p.1 v
      calc a.fill ((p :: ps).map Prod.swap) (v :: values)
          = (a.set p.2 p.1 v).fill (ps.map Prod.swap) values := rfl
        _ = (a.set p.1 p.2 v).fill ps values := by
            rw [hset]
            exact ih ((shape_set a _ _ _).trans h) values

/-- The transposed matrix is filled through the transposed positions. -/
theorem transpose_fill [Scalar α] {a : Mat α} {rows cols : ℕ} (h : a.shape = .general rows cols)
    (ps : List (ℕ × ℕ)) (values : List α) :
    (a.fill ps values).transpose = a.transpose.fill (ps.map Prod.swap) values := by
  induction ps generalizing a values with
  | nil => rfl
  | cons p ps ih =>
    cases values with
    | nil => simp [fill]
    | cons v values =>
      calc (a.fill (p :: ps) (v :: values)).transpose
          = ((a.set p.1 p.2 v).fill ps values).transpose := rfl
        _ = (a.set p.1 p.2 v).transpose.fill (ps.map Prod.swap) values :=
            ih ((shape_set a _ _ _).trans h) values
        _ = a.transpose.fill ((p :: ps).map Prod.swap) (v :: values) := by
            rw [transpose_set h]
            rfl

theorem byColumns_eq_map_swap {s : Shape} {n : ℕ} (h : s = .packed n) :
    s.byColumns = s.byRows.map Prod.swap := by
  subst h
  simp only [Shape.byColumns, Shape.byRows, Shape.listing_eq_map_range, List.map_map]
  rfl

/-! ## Line by line -/

theorem fillLine_eq (line : List (ℕ × ℕ)) (values : List α) (a : Mat α) :
    Kernel.fillLine line values a = (a.fill line values, values.drop line.length) := by
  induction line generalizing a values with
  | nil => rfl
  | cons p line ih =>
    cases values with
    | nil => simp [Kernel.fillLine, fill]
    | cons v values => exact ih values (a.set p.1 p.2 v)

theorem fillLines_eq (lines : List (List (ℕ × ℕ))) (values : List α) (a : Mat α) :
    Kernel.fillLines lines values a = a.fill lines.flatten values := by
  induction lines generalizing a values with
  | nil => simp [Kernel.fillLines, fill]
  | cons line lines ih =>
    rw [Kernel.fillLines, fillLine_eq, List.flatten_cons, fill_append]
    exact ih _ _

/-- A list that ends in the middle of the matrix ends all lines from there on. -/
theorem kernel_fillByRows_eq (a : Mat α) (values : List α) :
    Kernel.fillByRows a values = a.fillByRows values := by
  rw [Kernel.fillByRows, fillLines_eq, fillByRows, Shape.byRows, Shape.listing_eq_flatMap,
    List.flatMap_def]
  rfl

theorem kernel_fillByColumns_eq (a : Mat α) (values : List α) :
    Kernel.fillByColumns a values = a.fillByColumns values := by
  rw [Kernel.fillByColumns, fillLines_eq, fillByColumns, Shape.byColumns, Shape.listing_eq_flatMap,
    List.flatMap_def]
  rfl

/-! ## Filled matrices -/

section Filled

theorem eq_mul_add_iff {k r c n : ℕ} (hc : c < n) : k = r * n + c ↔ k / n = r ∧ k % n = c := by
  constructor
  · rintro rfl
    have hpos : 0 < n := by omega
    rw [Nat.mul_comm, Nat.mul_add_div hpos, Nat.mul_add_mod, Nat.div_eq_of_lt hc,
      Nat.mod_eq_of_lt hc]
    exact ⟨Nat.add_zero r, rfl⟩
  · rintro ⟨rfl, rfl⟩
    rw [Nat.mul_comm, Nat.div_add_mod]

/-- What the first `m` values of a list by rows leave in a packed matrix: the value for the position
below the diagonal comes after the one for the mirrored position. -/
theorem get_fill_packed [Scalar α] {a : Mat α} {n : ℕ} (h : a.shape = .packed n) (values : List α)
    {r c m : ℕ} (hcr : c ≤ r) (hr : r < n) (hm : m ≤ n * n) :
    (a.fill ((List.range m).map fun k => (k / n, k % n)) values).get r c =
      ((if r * n + c < m then values[r * n + c]? else none).or
        (if c * n + r < m then values[c * n + r]? else none)).getD (a.get r c) := by
  have horder : c * n + r ≤ r * n + c := by
    obtain ⟨d, rfl⟩ := Nat.exists_eq_add_of_le hcr
    have : d ≤ d * n := Nat.le_mul_of_pos_right d (by omega)
    rw [Nat.add_mul]
    omega
  induction m with
  | zero => simp [fill]
  | succ m ih =>
    have ih := ih (by omega)
    have hshape : (a.fill ((List.range m).map fun k => (k / n, k % n)) values).shape =
        .packed n := (shape_fill a _ _).trans h
    rw [fill_range_succ]
    generalize a.fill ((List.range m).map fun k => (k / n, k % n)) values = b at ih hshape ⊢
    cases hv : values[m]? with
    | none =>
      dsimp only
      rw [ih]
      grind
    | some v =>
      have hwithin : m < n * n := by omega
      have hcontains : b.shape.Contains (m / n) (m % n) := by
        rw [hshape]
        exact ⟨Nat.div_lt_of_lt_mul hwithin, Nat.mod_lt m (by omega)⟩
      have hrc : b.shape.Contains r c := by
        rw [hshape]
        exact ⟨hr, lt_of_le_of_lt hcr hr⟩
      have hmirrors : b.shape.Mirrors (m / n) (m % n) r c ↔ m = r * n + c ∨ m = c * n + r := by
        rw [hshape, eq_mul_add_iff (show c < n by omega), eq_mul_add_iff hr]
        simp only [Shape.Mirrors, Shape.isPacked, true_and]
        omega
      dsimp only
      rw [get_set hcontains hrc, ih]
      by_cases hhit : m = r * n + c ∨ m = c * n + r
      · rw [if_pos (hmirrors.2 hhit)]
        grind
      · rw [if_neg (mt hmirrors.1 hhit)]
        grind

/-- The first `m` values of a list by columns are the first cells of a full matrix. -/
theorem data_fill_general {a : Mat α} {rows cols : ℕ} (h : a.shape = .general rows cols)
    (values : List α) {m : ℕ} (hm : m ≤ rows * cols) (i : ℕ) :
    (a.fill ((List.range m).map fun k => (k % rows, k / rows)) values).data[i]? =
      if i < min values.length m then values[i]? else a.data[i]? := by
  induction m with
  | zero => simp [fill]
  | succ m ih =>
    have hwithin : m < rows * cols := by omega
    have hrows : 0 < rows := Nat.pos_of_mul_pos_right (Nat.zero_lt_of_lt hwithin)
    have ih := ih hwithin.le
    have hshape : (a.fill ((List.range m).map fun k => (k % rows, k / rows)) values).shape =
        .general rows cols := (shape_fill a _ _).trans h
    rw [fill_range_succ]
    generalize a.fill ((List.range m).map fun k => (k % rows, k / rows)) values = b at ih hshape ⊢
    cases hv : values[m]? with
    | none =>
      have hlength : values.length ≤ m := List.getElem?_eq_none_iff.1 hv
      dsimp only
      rw [ih, min_eq_left hlength, min_eq_left (by omega)]
    | some v =>
      obtain ⟨hlength, rfl⟩ := List.getElem?_eq_some_iff.1 hv
      have hcontains : b.shape.Contains (m % rows) (m / rows) := by
        rw [hshape]
        exact ⟨Nat.mod_lt m hrows, Nat.div_lt_of_lt_mul hwithin⟩
      have hcell : (Shape.general rows cols).index (m % rows) (m / rows) = m := by
        rw [Shape.index, Nat.mul_comm, Nat.div_add_mod]
      have hm : m < b.data.size := by
        rw [size_data, hshape]
        exact hwithin
      dsimp only
      rw [set, if_pos hcontains]
      dsimp only
      rw [hshape, hcell, Array.getElem?_setIfInBounds, ih]
      by_cases him : m = i
      · subst him
        rw [if_pos rfl, if_pos hm, if_pos (by omega), List.getElem?_eq_getElem hlength]
      · rw [if_neg him]
        grind

/-- A packed matrix is filled alike by rows and by columns. -/
theorem fillByColumns_eq_fillByRows {a : Mat α} {n : ℕ} (h : a.shape = .packed n)
    (values : List α) : a.fillByColumns values = a.fillByRows values := by
  rw [fillByColumns, fillByRows, byColumns_eq_map_swap h, fill_map_swap h]

/-- A full matrix is filled by rows as the transposed one is by columns. -/
theorem fillByRows_eq_transpose [Scalar α] {a : Mat α} {rows cols : ℕ}
    (h : a.shape = .general rows cols) (values : List α) :
    a.fillByRows values = (a.transpose.fillByColumns values).transpose := by
  have hswap : a.shape.byRows.map Prod.swap = a.transpose.shape.byColumns := by
    rw [h]
    simp only [Shape.byRows, Shape.byColumns, Shape.listing_eq_map_range, List.map_map,
      transpose, shape_ofFn, Mat.rows, Mat.cols, h, Shape.rows, Shape.cols]
    rfl
  have hshape : (a.fillByRows values).shape = .general rows cols :=
    (shape_fill a _ _).trans h
  have htwice : (a.fillByRows values).transpose.transpose = a.fillByRows values := by
    refine ext_get ?_ fun r c _ => by rw [get_transpose, get_transpose]
    simp [transpose, Mat.rows, Mat.cols, hshape, Shape.rows, Shape.cols]
  rw [← htwice, fillByRows, transpose_fill h, hswap, fillByColumns]

end Filled

/-- Cells, writes and lists. The positions of a full matrix, and those in the upper triangle of a
packed one, are in bijection with its cells, in agreement with the kernels; a write is seen at its
position and in a packed matrix at the transposed one, and nowhere else. A list of any length fills
a packed matrix alike by rows and by columns, and of two values for a cell the later one in the list
stays; by columns it goes to the first cells of a full matrix, and by rows it does to the matrix
what it does by columns to the transposed one. The listings fill line by line. -/
theorem cells_of_positions (α : Type) [Scalar α] :
    (∀ rows cols : ℕ,
      Set.BijOn (fun p : ℕ × ℕ => (Shape.general rows cols).index p.1 p.2)
          {p | p.1 < rows ∧ p.2 < cols} (Set.Iio (rows * cols)) ∧
        ∀ r c, Kernel.fullCell false rows r c = (Shape.general rows cols).index r c ∧
          Kernel.fullCell true rows r c = (Shape.general rows cols).index c r) ∧
    (∀ n : ℕ,
      Set.BijOn (fun p : ℕ × ℕ => (Shape.packed n).index p.1 p.2) {p | p.1 ≤ p.2 ∧ p.2 < n}
          (Set.Iio (n * (n + 1) / 2)) ∧
        ∀ r c, (Shape.packed n).index r c = (Shape.packed n).index c r ∧
          Kernel.packedCell r c = (Shape.packed n).index r c) ∧
    (∀ (a : Mat α) (r c : ℕ) (v : α), a.shape.Contains r c →
      ∃ b, a.set? r c v = .ok b ∧ b.shape = a.shape ∧
        ∀ r' c', a.shape.Contains r' c' →
          b.get? r' c' = if a.shape.Mirrors r c r' c' then .ok v else a.get? r' c') ∧
    (∀ (a : Mat α) (values : List α),
      Kernel.fillByRows a values = a.fillByRows values ∧
        Kernel.fillByColumns a values = a.fillByColumns values) ∧
    (∀ (n : ℕ) (a : Mat α) (values : List α), a.shape = .packed n →
      (a.fillByRows values).shape = .packed n ∧
        a.fillByColumns values = a.fillByRows values ∧
        ∀ r c, c ≤ r → r < n →
          (a.fillByRows values).get? r c =
            .ok ((values[r * n + c]?.or values[c * n + r]?).getD (a.get r c))) ∧
    ∀ (rows cols : ℕ) (a : Mat α) (values : List α), a.shape = .general rows cols →
      (a.fillByColumns values).shape = .general rows cols ∧
        (∀ i, (a.fillByColumns values).data[i]? =
          if i < min values.length (rows * cols) then values[i]? else a.data[i]?) ∧
        a.fillByRows values = (a.transpose.fillByColumns values).transpose := by
  refine ⟨fun rows cols => ⟨Shape.bijOn_index_general rows cols, fun r c => ⟨rfl, rfl⟩⟩,
    fun n => ⟨Shape.bijOn_index_packed n, fun r c => ⟨Shape.index_packed_comm n r c,
      packedCell_eq_index n r c⟩⟩, ?_, fun a values => ⟨kernel_fillByRows_eq a values,
      kernel_fillByColumns_eq a values⟩, ?_, ?_⟩
  · intro a r c v hrc
    refine ⟨a.set r c v, guarded_eq_ok hrc, shape_set a r c v, fun r' c' hrc' => ?_⟩
    rw [get?, get?, guarded_eq_ok hrc', guarded_eq_ok (by rwa [shape_set]), get_set hrc hrc']
    split <;> rfl
  · intro n a values h
    have hshape : (a.fillByRows values).shape = .packed n := (shape_fill a _ _).trans h
    refine ⟨hshape, fillByColumns_eq_fillByRows h values, fun r c hcr hr => ?_⟩
    have hrc : (a.fillByRows values).shape.Contains r c := by
      rw [hshape]
      exact ⟨hr, lt_of_le_of_lt hcr hr⟩
    have hlt : ∀ {i j : ℕ}, i < n → j < n → i * n + j < n * n := fun {i j} hi hj => by
      calc i * n + j < i * n + n := by omega
        _ = (i + 1) * n := (Nat.succ_mul i n).symm
        _ ≤ n * n := Nat.mul_le_mul_right n hi
    have hc : c < n := lt_of_le_of_lt hcr hr
    have hbyRows : a.shape.byRows = (List.range (n * n)).map fun k => (k / n, k % n) := by
      rw [h]
      exact Shape.listing_eq_map_range n n _
    rw [get?, guarded_eq_ok hrc, fillByRows, hbyRows, get_fill_packed h values hcr hr le_rfl,
      if_pos (hlt hr hc), if_pos (hlt hc hr)]
  · intro rows cols a values h
    have hbyColumns : a.shape.byColumns =
        (List.range (rows * cols)).map fun k => (k % rows, k / rows) := by
      rw [h, Nat.mul_comm]
      exact Shape.listing_eq_map_range cols rows _
    refine ⟨(shape_fill a _ _).trans h, fun i => ?_, fillByRows_eq_transpose h values⟩
    rw [fillByColumns, hbyColumns, data_fill_general h values le_rfl]

/-! ## A sample -/

/-- A packed matrix and a full one, each filled with sevens. -/
def sevens : Mat Lossy × Mat Lossy :=
  (⟨.packed 2, #[.num 7, .num 7, .num 7], rfl⟩,
    ⟨.general 2 2, #[.num 7, .num 7, .num 7, .num 7], rfl⟩)

/-- A list that ends before the last position of either matrix. -/
def shortList : List Lossy := [.num 1, .num 2, .nan]

theorem cells_of_positions_shortList :
    (sevens.1.shape = .packed 2 ∧ sevens.2.shape = .general 2 2) ∧
      sevens.1.fillByColumns shortList = sevens.1.fillByRows shortList ∧
      (sevens.1.fillByRows shortList).get? 1 0 = .ok .nan ∧
      (sevens.1.fillByRows shortList).get? 1 1 = .ok (.num 7) ∧
      (sevens.2.fillByColumns shortList).data[2]? = some .nan ∧
      (sevens.2.fillByColumns shortList).data[3]? = some (.num 7) ∧
      (∃ b, sevens.1.set? 0 1 .nan = .ok b ∧ b.get? 1 0 = .ok .nan ∧ b.get? 1 1 = .ok (.num 7)) := by
  obtain ⟨-, -, hwrite, -, hpacked, hfull⟩ := cells_of_positions Lossy
  obtain ⟨-, hsame, hentry⟩ := hpacked 2 sevens.1 shortList rfl
  obtain ⟨-, hcells, -⟩ := hfull 2 2 sevens.2 shortList rfl
  obtain ⟨b, hb, -, hreads⟩ := hwrite sevens.1 0 1 .nan (by decide)
  exact ⟨⟨rfl, rfl⟩, hsame, hentry 1 0 (by decide) (by decide), hentry 1 1 le_rfl (by decide),
    hcells 2, hcells 3, b, hb, hreads 1 0 (by decide), hreads 1 1 (by decide)⟩

end Mat

end QuadProg
