import QuadProg.Defect
import QuadProg.Factor.Rank
import QuadProg.Mat.Product

/-!
# Quadratic programs

Minimise `½ x Q x - c x` subject to `A_E x = b_E` and `A_I x ≤ b_I`, with `Q` symmetric positive
semidefinite. Constraints that are absent are kept as matrices without rows. The pairs of
constraints and bounds are looked at when the program is built; the other checks wait until it is to
be solved, because the rank of the equality constraints depends on a threshold.

The functions of a point are checked, since nothing is known about the sizes before the program has
passed its checks.
-/

namespace QuadProg

/-- A quadratic program. -/
structure QuadraticProgram (α : Type) where
  /-- The quadratic term. -/
  q : Mat α
  /-- The linear term. -/
  c : Mat α
  /-- The equality constraints. -/
  ae : Mat α
  /-- The right-hand side of the equality constraints. -/
  be : Mat α
  /-- The inequality constraints. -/
  ai : Mat α
  /-- The bounds of the inequality constraints. -/
  bi : Mat α
  /-- What was found wrong with the pairs of constraints and bounds. -/
  defects : List Defect

namespace QuadraticProgram

variable {α : Type} [Scalar α]

/-- The defect found by a check, if any. -/
def defectOf {β : Type} : Except Defect β → List Defect
  | .ok _ => []
  | .error d => [d]

/-- The program with the given data. -/
def ofData (q c : Mat α) (ae be ai bi : Option (Mat α)) : QuadraticProgram α :=
  let n := c.rows
  let noRows := Mat.zeros (.general 0 n)
  let noBounds := Mat.zeros (.general 0 1)
  { q, c
    ae := ae.getD noRows
    be := be.getD noBounds
    ai := ai.getD noRows
    bi := bi.getD noBounds
    defects := defectOf (checkPair .equality n ae be) ++ defectOf (checkPair .inequality n ai bi) }

/-- The number of variables. -/
def n (p : QuadraticProgram α) : Nat := p.c.rows

/-- The number of equality constraints. -/
def me (p : QuadraticProgram α) : Nat := p.ae.rows

/-- The number of inequality constraints. -/
def mi (p : QuadraticProgram α) : Nat := p.ai.rows

/-- There is a constraint. -/
def isConstrained (p : QuadraticProgram α) : Bool := 0 < p.me + p.mi

/-- There is room for a point and for one multiplier for each constraint. -/
def Fits (p : QuadraticProgram α) : Prop :=
  Addressable (Scalar.width α) p.n ∧ p.me + p.mi < wordBound ∧
    Addressable (Scalar.width α) (p.me + p.mi)

instance (p : QuadraticProgram α) : Decidable p.Fits :=
  inferInstanceAs (Decidable (_ ∧ _ ∧ _))

/-- The zero point. -/
def origin (p : QuadraticProgram α) : Vec α := Vec.zeros p.n

/-- Accepts the program or returns its first defect. -/
def check (p : QuadraticProgram α) (threshold : α) : Except Defect Unit :=
  match p.defects with
  | d :: _ => .error d
  | [] =>
    if p.q.size = (p.n, p.n) ∧ p.c.size = (p.n, 1) then
      if p.me = 0 then .ok ()
      else
        let rank := p.ae.rank threshold
        if rank = p.me then .ok () else .error (.dependentRows rank p.me)
    else .error (.objectiveSizes p.q.size p.c.size)

/-- The objective `½ x Q x - c x`. -/
def objective (p : QuadraticProgram α) (x : Vec α) : α :=
  let half : α := 1 / (1 + 1)
  half * x.dot (p.q.mulVec x) - Vec.dot p.c.data x

/-- The objective at a point that fits the program. -/
def objective? (p : QuadraticProgram α) (x : Vec α) : Checked α :=
  guarded (x.size = p.q.cols ∧ x.size = p.q.rows ∧ p.c.data.size = x.size) .sizeMismatch
    (p.objective x)

/-- The gradient `Q x - c`. -/
def gradient (p : QuadraticProgram α) (x : Vec α) : Vec α :=
  Vec.addScaled (-1) p.c.data (p.q.mulVec x)

/-- The gradient at a point that fits the program. -/
def gradient? (p : QuadraticProgram α) (x : Vec α) : Checked (Vec α) :=
  guarded (x.size = p.q.cols ∧ p.c.data.size = p.q.rows) .sizeMismatch (p.gradient x)

/-- The left-hand sides of the listed inequalities. -/
def bodies? (p : QuadraticProgram α) (idx : List Nat) (x : Vec α) : Checked (Vec α) := do
  let rows ← p.ai.select? idx
  rows.mulVec? x

/-- The bound of an inequality. -/
def bound (p : QuadraticProgram α) (i : Nat) : α := p.bi.get i 0

/-- The listed inequalities all have a bound. -/
def HasBounds (p : QuadraticProgram α) (idx : List Nat) : Prop :=
  ∀ i ∈ idx, p.bi.shape.Contains i 0

instance (p : QuadraticProgram α) (idx : List Nat) : Decidable (p.HasBounds idx) :=
  inferInstanceAs (Decidable (∀ i ∈ idx, p.bi.shape.Contains i 0))

/-- The slacks `b - a x` of the listed inequalities. -/
def slacks? (p : QuadraticProgram α) (idx : List Nat) (x : Vec α) : Checked (Vec α) := do
  let values ← p.bodies? idx x
  guarded (p.HasBounds idx) .outOfRange
    (values.mapIdx fun k v => p.bound (idx.getD k 0) - v)

/-- Every listed row satisfies `holds` for its bound and its left-hand side. The scan stops at the
first row that does not, so that later rows need no bound. -/
def allRows? (bounds : Mat α) (values : Vec α) (holds : α → α → Bool) :
    List Nat → Checked Bool
  | [] => .ok true
  | r :: rest => do
    let b ← bounds.get? r 0
    if holds b (values.entry r) then allRows? bounds values holds rest else return false

/-- The point satisfies the constraints, where `same` decides whether a bound is met. -/
def isFeasible? (p : QuadraticProgram α) (x : Vec α) (same : α → α → Bool) : Checked Bool := do
  let equalities ← p.ae.mulVec? x
  let tight ← allRows? p.be equalities same (List.range p.me)
  let inequalities ← p.ai.mulVec? x
  let below ← allRows? p.bi inequalities (fun b v => v ≤ b || same b v) (List.range p.mi)
  return tight && below

end QuadraticProgram

end QuadProg
