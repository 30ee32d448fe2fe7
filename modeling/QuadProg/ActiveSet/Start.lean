import QuadProg.ActiveSet.State
import QuadProg.LinearProgram

/-!
# The starting point

The method starts from a point that satisfies the constraints. A point offered by the caller is
taken if it does; otherwise a linear program finds one. Its variables are the positive and the
negative part of the point and the slacks of the inequalities, and its cost is a gradient of the
objective, so that the point found lies towards the minimum.

The inequalities that are tight at the point form the first working set, which is then cut down to
at most as many rows as there are variables.
-/

namespace QuadProg

namespace ActiveSet

variable {α : Type} [Scalar α]

/-- The point satisfies the constraints up to the tolerance of slacks. -/
def isFeasible? (par : Params α) (p : QuadraticProgram α) (x : Vec α) : Checked Bool :=
  p.isFeasible? x fun a b => !par.slack.differ a b

/-! ## The linear program for a starting point -/

/-- The constraints of the linear program: `A (x⁺ - x⁻) + s = b` with slacks for the inequalities.
-/
def startMatrix (p : QuadraticProgram α) : Mat α :=
  let n := p.n
  Mat.ofFn (.general (p.me + p.mi) (n + n + p.mi)) fun r c =>
    let (a, i) := if r < p.me then (p.ae, r) else (p.ai, r - p.me)
    if c < n then a.get i c
    else if c < n + n then -a.get i (c - n)
    else if p.me ≤ r ∧ c - n - n = i then 1
    else 0

/-- The cost of the linear program, given a gradient of the objective. -/
def startCost (p : QuadraticProgram α) (g : Vec α) : Mat α :=
  let n := p.n
  Mat.ofFn (.general (n + n + p.mi) 1) fun r _ =>
    if r < n then g.entry r else if r < n + n then -g.entry (r - n) else 0

/-- The gradient that serves as cost: that at the offered point, or else that at the origin. -/
def startGradient? (p : QuadraticProgram α) (offer : Option (Vec α)) : Checked (Vec α) :=
  match offer with
  | some x => p.gradient? x
  | none => .ok (Vec.scale (-1) p.c.data)

/-- The linear program has all entries that it reads: each gradient entry, and in each constraint
row one entry for each variable. -/
def HasStartData (p : QuadraticProgram α) (g : Vec α) : Prop :=
  p.n ≤ g.size ∧ (p.me = 0 ∨ p.n ≤ p.ae.cols) ∧ (p.mi = 0 ∨ p.n ≤ p.ai.cols)

instance (p : QuadraticProgram α) (g : Vec α) : Decidable (HasStartData p g) :=
  inferInstanceAs (Decidable (_ ∧ _ ∧ _))

/-- There is room for the linear program in standard form and for its tableau. -/
def StartFits (p : QuadraticProgram α) : Prop :=
  StandardForm.Fits α (p.me + p.mi) (p.n + p.n + p.mi) ∧
    Tableau.Fits α (p.me + p.mi) (p.n + p.n + p.mi)

instance (p : QuadraticProgram α) : Decidable (StartFits p) :=
  inferInstanceAs (Decidable (_ ∧ _))

/-- The tableau of the linear program, refused if there is no room for it or for the standard form
that it is made of. -/
def startTableau? (p : QuadraticProgram α) (offer : Option (Vec α)) : Checked (Tableau α) := do
  let g ← startGradient? p offer
  require (StandardForm.Fits α (p.me + p.mi) (p.n + p.n + p.mi)) .tooLarge
  require (HasStartData p g) .outOfRange
  let bounds ← Memory.above? p.be p.bi
  let rows ← signedRows? (startMatrix p) bounds
  Tableau.ofStandardForm? rows.a rows.b (startCost p g)

/-- The point with its first entries replaced by `x⁺ - x⁻`. -/
def pointOf (n : Nat) (solution x : Vec α) : Vec α :=
  x.mapIdx fun i v => if i < n then solution.entry i - solution.entry (n + i) else v

/-- The multipliers with those of the inequalities replaced by the reduced costs of their slacks. -/
def multipliersOf (p : QuadraticProgram α) (costs l : Vec α) : Vec α :=
  l.mapIdx fun j v =>
    if p.me ≤ j ∧ j < p.me + p.mi then costs.entry (p.n + p.n + (j - p.me)) else v

/-- The outcome of the search for a point: the status, and the state with its point and multipliers
if one was found. -/
structure Search (α : Type) where
  /-- Feasible, infeasible or failed. -/
  status : Status
  /-- The state after the search. -/
  state : State α
  /-- What happened. -/
  trace : Trace α

/-- Searches for a point by the linear program. An unbounded program has passed its first phase, so
its point satisfies the constraints as well. -/
def searchByProgram? (par : Params α) (p : QuadraticProgram α) (s : State α)
    (offer : Option (Vec α)) : Checked (Search α) := do
  let start ← startTableau? p offer
  let (t, trace) := start.solve par
  if t.status.isFeasible || t.status = .unbounded then
    require (p.n ≤ s.x.size ∧ (p.mi = 0 ∨ p.me + p.mi ≤ s.multipliers.size)) .outOfRange
    let found := { s with
      x := pointOf p.n t.point s.x
      multipliers := multipliersOf p t.reducedCosts s.multipliers }
    return ⟨.feasible, found, trace⟩
  else
    let status := if t.status = .failed then Status.failed else Status.infeasible
    return ⟨status, s, trace ++ [.note (.noStart t.status)]⟩

/-- The point of an offered solution, if it is approximate and has the right length. -/
def usableOffer (p : QuadraticProgram α) (offer : Option (Solution α)) : Option (Vec α) :=
  match offer with
  | some k => if k.status.isApproximate && k.x.size = p.n then some k.x else none
  | none => none

/-- Searches for a point when none was offered, or the offered one is not feasible. -/
def searchAnew? (par : Params α) (p : QuadraticProgram α) (s : State α)
    (offer : Option (Vec α)) : Checked (Search α) :=
  if p.isConstrained then searchByProgram? par p s offer
  else .ok ⟨.feasible, { s with x := p.origin }, []⟩

/-- Searches for a point that satisfies the constraints. -/
def search? (par : Params α) (p : QuadraticProgram α) (s : State α)
    (offer : Option (Vec α)) : Checked (Search α) :=
  match offer with
  | none => searchAnew? par p s none
  | some k => do
    let x ← Vec.copyTo? k s.x
    let s := { s with x }
    if ← isFeasible? par p x then return ⟨.feasible, s, []⟩
    else searchAnew? par p s (some x)

/-! ## The first working set -/

/-- Joins the inequality `i` with the left-hand side `v` to the working set if it is tight. -/
def joinTight (par : Params α) (p : QuadraticProgram α) (w : WorkingSet) (iv : Nat × α) :
    WorkingSet :=
  if par.slack.differ (p.bound iv.1) iv.2 then w else w.insert iv.1

/-- Joins the tight inequalities to the working set. -/
def joinTight? (par : Params α) (p : QuadraticProgram α) (s : State α) : Checked (State α) :=
  if p.mi = 0 then .ok s
  else do
    let others := s.working.others
    let values ← p.bodies? others s.x
    guarded (p.HasBounds others) .outOfRange
      { s with working := (others.zip values.toList).foldl (joinTight par p) s.working }

/-- Drops members of the working set while there are more active rows than variables. -/
def trim? (p : QuadraticProgram α) : Nat → State α → Checked (State α)
  | 0, s => .ok s
  | fuel + 1, s =>
    if p.n < p.me + s.working.card ∧ 0 < s.working.card then do
      let s ← s.shrink? p.me
      trim? p fuel s
    else .ok s

/-- Clears the multipliers outside of the working set. -/
def clearOthers (p : QuadraticProgram α) (s : State α) : State α :=
  { s with
    multipliers := s.working.others.foldl (fun l i => l.setIfInBounds (p.me + i) 0) s.multipliers }

/-- Clears the multipliers outside of the working set, refused if one of them is missing. -/
def clearOthers? (p : QuadraticProgram α) (s : State α) : Checked (State α) :=
  guarded (∀ i ∈ s.working.others, p.me + i < s.multipliers.size) .outOfRange (clearOthers p s)

/-- Solves for the unconstrained minimiser if the quadratic term has a factor. -/
def cacheMinimizer? (p : QuadraticProgram α) (s : State α) : Checked (State α) :=
  if s.cholesky.isSolvable then do
    let x ← s.cholesky.solveVec? p.c.data
    return { s with minimizer := some x }
  else .ok { s with minimizer := none }

/-- Prepares the working set, the multipliers and the unconstrained minimiser at a feasible point.
-/
def prepare? (par : Params α) (p : QuadraticProgram α) (s : State α) : Checked (State α) := do
  let s ← joinTight? par p s
  let s ← trim? p s.working.card s
  let s ← clearOthers? p s
  cacheMinimizer? p s

/-- Finds a starting point and its working set. The state ends feasible, infeasible or failed, and
at the origin unless it is feasible. -/
def initialise? (par : Params α) (p : QuadraticProgram α) (offer : Option (Solution α))
    (s : State α) : Checked (Stage α) := do
  let cholesky ← s.cholesky.compute? p.q
  let s := { s with cholesky, working := s.working.clear }
  let found ← search? par p s (usableOffer p offer)
  if found.status = .feasible then
    let ⟨s, changes⟩ := found.state.moveTo .feasible
    let s ← prepare? par p s
    return ⟨s, found.trace ++ changes ++ [.note (.initialSet s.working)]⟩
  else
    let ⟨s, changes⟩ := { found.state with x := p.origin }.moveTo found.status
    return ⟨s, found.trace ++ changes⟩

end ActiveSet

end QuadProg
