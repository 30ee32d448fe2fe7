import QuadProg.StandardForm
import QuadProg.Tableau.Run

/-!
# Linear programs

Minimise `c x` subject to `A_E x = b_E`, `A_I x ≤ b_I` and `x ≥ 0`. Either pair of constraints may
be absent. The program is brought into standard form by one slack variable for each inequality, rows
with a negative right-hand side are negated, and the simplex method does the rest. The multipliers
are those of the rows as they were given.
-/

namespace QuadProg

/-- A linear program as given. -/
structure LinearProgram (α : Type) where
  /-- The cost. -/
  c : Mat α
  /-- The equality constraints. -/
  ae : Option (Mat α)
  /-- The right-hand side of the equality constraints. -/
  be : Option (Mat α)
  /-- The inequality constraints. -/
  ai : Option (Mat α)
  /-- The bounds of the inequality constraints. -/
  bi : Option (Mat α)

variable {α : Type} [Scalar α]

namespace LinearProgram

/-- The number of variables. -/
def n (p : LinearProgram α) : Nat := p.c.rows

/-- The numbers of equality and inequality constraints, or the first defect. -/
def check (p : LinearProgram α) : Except Defect (Nat × Nat) := do
  if p.c.size = (p.n, 1) then
    let me ← checkPair .equality p.n p.ae p.be
    let mi ← checkPair .inequality p.n p.ai p.bi
    return (me, mi)
  else
    .error (.costSize p.c.size)

/-- The entry of a matrix that may be absent. -/
def entry (a : Option (Mat α)) (r c : Nat) : α :=
  match a with
  | some a => a.get r c
  | none => 0

/-- The standard form of a program with `me` equality and `mi` inequality constraints. The slack of
each inequality follows the variables. -/
def standardFormOf (p : LinearProgram α) (me mi : Nat) : StandardForm α where
  a := Mat.ofFn (.general (me + mi) (p.n + mi)) fun r c =>
    if r < me then
      if c < p.n then entry p.ae r c else 0
    else if c < p.n then entry p.ai (r - me) c
    else if c - p.n = r - me then 1
    else 0
  b := Mat.ofFn (.general (me + mi) 1) fun r _ =>
    if r < me then entry p.be r 0 else entry p.bi (r - me) 0
  c := Mat.ofFn (.general (p.n + mi) 1) fun r _ => if r < p.n then p.c.get r 0 else 0

/-- The standard form of a program with `me` equality and `mi` inequality constraints, refused if
there is no room for it. -/
def standardFormOf? (p : LinearProgram α) (me mi : Nat) : Checked (StandardForm α) :=
  guarded (StandardForm.Fits α (me + mi) (p.n + mi)) .tooLarge (p.standardFormOf me mi)

/-- The solution of the program from that of its standard form: the slacks are dropped and the
multipliers of negated rows are negated. -/
def restore (p : LinearProgram α) (flips : Array Bool) (s : Solution α) : Solution α :=
  { s with
    x := s.x.extract 0 p.n
    multipliers := s.multipliers.map fun duals =>
      duals.mapIdx fun r d => if flips.getD r false then -d else d }

/-- The remark at the end of a run. -/
def closing (status : Status) : Trace α :=
  if status.isOptimal then [.note .converged]
  else if status.isFailure then [.note (.linearFailure status)]
  else []

/-- Solves a program in standard form that stems from `p`. -/
def solveForm? (par : Params α) (p : LinearProgram α) (form : StandardForm α) :
    Checked (Outcome α) := do
  let rows ← signedRows? form.a form.b
  let start ← Tableau.ofStandardForm? rows.a rows.b form.c
  let (t, trace) := start.solve par
  return {
    result := .ok (p.restore rows.flips t.solution)
    trace := .note .initializing :: .note .started :: trace ++ closing t.status }

/-- There is room for what the solver makes of a program with `me` equality and `mi` inequality
constraints: its standard form and the tableau. -/
def Fits (p : LinearProgram α) (me mi : Nat) : Prop :=
  StandardForm.Fits α (me + mi) (p.n + mi) ∧ Tableau.Fits α (me + mi) (p.n + mi)

instance (p : LinearProgram α) (me mi : Nat) : Decidable (p.Fits me mi) :=
  inferInstanceAs (Decidable (_ ∧ _))

/-- Solves the program. One that passes its checks is refused if there is no room for its standard
form or for the tableau, or if a right-hand side is not a number. -/
def solve? (par : Params α) (p : LinearProgram α) : Checked (Outcome α) :=
  match p.check with
  | .error d => .ok ⟨.error d, [.note (.defect d)]⟩
  | .ok (me, mi) => do
    let form ← p.standardFormOf? me mi
    p.solveForm? par form

end LinearProgram

end QuadProg
