import QuadProg.Vec

/-!
# Progress and solutions

The status of a run, from the least to the most that is known about its point, and the three ways to
end without a usable point.
-/

namespace QuadProg

/-- What is known about the current point of a run. -/
inductive Status where
  /-- Nothing yet. -/
  | unexplored
  /-- The problem passed its checks. -/
  | valid
  /-- The point satisfies the constraints. -/
  | feasible
  /-- The point satisfies the constraints and has been moved towards an optimum. -/
  | approximate
  /-- The point is an optimum. -/
  | optimal
  /-- No point satisfies the constraints. -/
  | infeasible
  /-- The objective decreases without bound. -/
  | unbounded
  /-- The run gave up. -/
  | failed
deriving DecidableEq

namespace Status

/-- The point satisfies the constraints. -/
def isFeasible : Status → Bool
  | feasible | approximate | optimal => true
  | _ => false

/-- The point has been moved towards an optimum. -/
def isApproximate : Status → Bool
  | approximate | optimal => true
  | _ => false

/-- The point is an optimum. -/
def isOptimal : Status → Bool
  | optimal => true
  | _ => false

/-- The run ended without a usable point. -/
def isFailure : Status → Bool
  | infeasible | unbounded | failed => true
  | _ => false

theorem isFeasible_of_isFailure {s : Status} (h : s.isFailure = true) : s.isFeasible = false := by
  cases s
  all_goals first | rfl | cases h

/-- The name of the status. -/
def name : Status → String
  | unexplored => "Unexplored"
  | valid => "Valid"
  | feasible => "Feasible"
  | approximate => "Approximate"
  | optimal => "Optimal"
  | infeasible => "Infeasible"
  | unbounded => "Unbounded"
  | failed => "Failed"

/-- The name of the status in capitals, as it stands in reports. -/
def label : Status → String
  | unexplored => "UNEXPLORED"
  | valid => "VALID"
  | feasible => "FEASIBLE"
  | approximate => "APPROXIMATE"
  | optimal => "OPTIMAL"
  | infeasible => "INFEASIBLE"
  | unbounded => "UNBOUNDED"
  | failed => "FAILED"

end Status

/-- The result of a run. -/
structure Solution (α : Type) where
  /-- The status in which the run ended. -/
  status : Status
  /-- The point. -/
  x : Vec α
  /-- The multipliers of the constraints, if they are known. -/
  multipliers : Option (Vec α)
  /-- The objective at the point. -/
  value : α
  /-- The number of iterations made. -/
  iterations : Nat

end QuadProg
