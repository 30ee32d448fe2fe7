import QuadProg.Tableau.Pivot

/-!
# Running the simplex method

The first phase drives the artificial variables out of the basis, the second one minimises the cost.
A run pivots until no column or no row can be chosen, or until the limit of pivots is reached. Every
decision leaves its record in the trace.
-/

namespace QuadProg

namespace Tableau

variable {α : Type} [Scalar α]

/-- The tableau with a new status, and the record of the change. -/
def moveTo (t : Tableau α) (status : Status) : Tableau α × Trace α :=
  ({ t with status }, Trace.transition t.status status)

/-- The first phase is done: no artificial variable is basic or their sum is zero. -/
def isPhaseOneDone (par : Params α) (t : Tableau α) : Bool :=
  t.phase = .one && (t.artificials = 0 || par.objective.isZero t.infeasibility)

/-- Enters the second phase if the first one is done. -/
def enterPhaseTwo (par : Params α) (t : Tableau α) : Tableau α × Trace α :=
  if t.isPhaseOneDone par then
    let (t', changes) := { t with phase := .two }.moveTo .feasible
    (t', .note (.secondPhase t.artificials) :: changes)
  else (t, [])

/-- The status of a run that stops for lack of a column. -/
def statusWithoutColumn (t : Tableau α) : Status :=
  match t.phase with
  | .one => .infeasible
  | .two => .optimal

/-- The status of a run that stops for lack of a row. -/
def statusWithoutRow (t : Tableau α) : Status :=
  match t.phase with
  | .one => .infeasible
  | .two => .unbounded

/-- The next pivot of the current phase, or the status in which the run ends. -/
def nextPivot (par : Params α) (t : Tableau α) : Except Status (Nat × Nat) :=
  match t.enteringColumn par with
  | none => .error t.statusWithoutColumn
  | some col =>
    match t.leavingRow par col with
    | none => .error t.statusWithoutRow
    | some row => .ok (row, col)

/-- Pivots once, counts it and records it. -/
def advance (t : Tableau α) (row col : Nat) : Tableau α × Trace α :=
  let t₁ := { t.pivot row col with iterations := t.iterations + 1 }
  let (t₂, changes) :=
    match t.phase with
    | .one => (t₁, [])
    | .two => t₁.moveTo .approximate
  (t₂, changes ++ [.event (.pivot t.phase row col t₂.basis t₂.objective)])

/-- Pivots until the run ends or `fuel` pivots have been made. The end is noticed even when no
more pivots may be made; stopping in the first phase is a failure. -/
def run (par : Params α) (fuel : Nat) (t : Tableau α) : Tableau α × Trace α :=
  let opening : Record α := .event (.iteration t.iterations t.status)
  let (t₁, entry) := t.enterPhaseTwo par
  match t₁.nextPivot par with
  | .error status =>
    let (t₂, changes) := t₁.moveTo status
    (t₂, opening :: entry ++ changes)
  | .ok (row, col) =>
    match fuel with
    | 0 =>
      let (t₂, changes) :=
        match t₁.phase with
        | .one => t₁.moveTo .failed
        | .two => (t₁, [])
      (t₂, opening :: entry ++ .note .iterationLimit :: changes)
    | fuel + 1 =>
      let (t₂, moves) := t₁.advance row col
      let (t₃, rest) := run par fuel t₂
      (t₃, opening :: entry ++ moves ++ rest)

/-- Solves the program from the current basis, with as many pivots as the limit leaves. -/
def solve (par : Params α) (t : Tableau α) : Tableau α × Trace α :=
  let (t', trace) := t.run par (par.maxIter - t.iterations)
  (t', .note (.simplexStart t.m t.n) :: .note (.tableau t.grid) :: trace ++
    [.note (.simplexEnd t'.status t'.iterations t'.objective)])

end Tableau

end QuadProg
