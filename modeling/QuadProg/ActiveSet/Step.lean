import QuadProg.ActiveSet.Start
import QuadProg.ActiveSet.Subproblem

/-!
# One iteration

An iteration solves the subproblem of the working set and moves towards its solution, as far as the
inequalities outside of the working set allow. The first inequality to limit the step is remembered.
A subproblem without a solution is tried again with one constraint less, a limited number of times.
-/

namespace QuadProg

namespace ActiveSet

variable {α : Type} [Scalar α]

/-! ## Moving towards a target -/

/-- The length of the step at which an inequality with the slack `slack` becomes tight if its
left-hand side grows by `growth` over the whole step. A negligible slack allows none. -/
def stepRatio (par : Params α) (slack growth : α) : α :=
  if par.slack.isSmall growth slack then 0 else slack / growth

/-- The inequality limits the step: its left-hand side grows, not negligibly next to the length of
the move, and the ratio is not negative. -/
def limitsStep (par : Params α) (length slack growth : α) : Bool :=
  0 < growth && 0 ≤ stepRatio par slack growth && !par.solution.isSmall length growth

/-- How far to go along a move, and the inequality that limits it. -/
structure Stride (α : Type) where
  /-- The fraction of the move to make. -/
  length : α
  /-- The inequality that limits the move. -/
  blocking : Option Nat

/-- The whole move. -/
def Stride.whole : Stride α := ⟨1, none⟩

/-- The largest fraction, up to the whole, of the move `dx` that keeps the listed inequalities. -/
def stride? (par : Params α) (p : QuadraticProgram α) (x dx : Vec α) (length : α)
    (others : List Nat) : Checked (Stride α) :=
  if others.isEmpty then .ok .whole
  else do
    let slacks ← p.slacks? others x
    let growths ← p.bodies? others dx
    let best := Selection.least 1
      (fun k => limitsStep par length (slacks.entry k) (growths.entry k))
      (fun k => stepRatio par (slacks.entry k) (growths.entry k))
      (List.range others.length)
    return ⟨best.bound, best.choice.map fun k => others.getD k 0⟩

/-- Moves towards the target. A move that is negligible next to the point is not made. -/
def move? (par : Params α) (p : QuadraticProgram α) (s : State α) (target : Vec α) :
    Checked (Stage α) := do
  let dx ← Vec.addScaled? (-1) s.x target
  let length := dx.norm
  if par.solution.isSmall s.x.norm length then
    return s.moveTo .feasible
  else
    let stride ← stride? par p s.x dx length s.working.others
    let x ← if 0 < stride.length then Vec.addScaled? stride.length dx s.x else .ok s.x
    let ⟨s', changes⟩ := { s with x, blocking := stride.blocking }.moveTo .approximate
    return ⟨s', .note (.step s.iterations stride.length stride.blocking) :: changes⟩

/-- The multipliers of all constraints from those of the active rows. -/
def spread (p : QuadraticProgram α) (active : List Nat) (l all : Vec α) : Vec α :=
  active.zipIdx.foldl (fun v ik => v.setIfInBounds (p.me + ik.1) (l.entry (p.me + ik.2)))
    (all.mapIdx fun j _ => if j < p.me then l.entry j else 0)

/-- Takes over the multipliers of the active rows, refused if one of them has no place. -/
def adopt? (p : QuadraticProgram α) (active : List Nat) (l : Vec α) (s : State α) :
    Checked (State α) :=
  guarded (p.me ≤ s.multipliers.size ∧ ∀ i ∈ active, p.me + i < s.multipliers.size) .outOfRange
    { s with multipliers := spread p active l s.multipliers }

/-- Moves towards the target and takes over its multipliers. -/
def takeStep? (par : Params α) (p : QuadraticProgram α) (s : State α) (active : List Nat)
    (target : Target α) : Checked (Stage α) := do
  let moved ← move? par p s target.x
  let s ← adopt? p active target.multipliers moved.state
  return ⟨s, moved.trace⟩

/-! ## Trying with fewer constraints -/

/-- Solves the subproblem and takes the step, dropping up to `retries` constraints until there is a
solution. Without a solution and without constraints to drop, all that can be said is whether the
point is feasible. -/
def attempt? (par : Params α) (p : QuadraticProgram α) (retries : Nat) (s : State α) :
    Checked (Stage α) := do
  let active := s.working.members
  let outcome ← subproblem? p s active
  let s := { s with lu := outcome.lu }
  match outcome.target with
  | some target => takeStep? par p s active target
  | none =>
    let failure : Record α := .note (.unsolvable s.iterations)
    if active.isEmpty then
      let feasible ← isFeasible? par p s.x
      let ⟨s, changes⟩ := s.moveTo (if feasible then .feasible else .infeasible)
      return ⟨s, failure :: changes⟩
    else
      match retries with
      | 0 =>
        let ⟨s', changes⟩ := s.moveTo .failed
        return ⟨s', failure :: .note (.retryLimit par.maxRetry s.working) :: changes⟩
      | retries + 1 =>
        let s ← s.shrink? p.me
        let ⟨s, rest⟩ ← attempt? par p retries s
        return ⟨s, failure :: rest⟩

/-- One iteration of the method. -/
def iterate? (par : Params α) (p : QuadraticProgram α) (s : State α) : Checked (Stage α) :=
  attempt? par p par.maxRetry { s with blocking := none }

end ActiveSet

end QuadProg
