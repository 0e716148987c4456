import FiniteDomains.Propagator.Bounds
import FiniteDomains.Propagator.Cumulative
import FiniteDomains.Propagator.Script

/-! The constraints that can be posted, the changes that wake them, and how they narrow. -/
namespace FiniteDomains

inductive Propagator (t : ValueType) where
  /-- The sum of `x` and `y` is `z`. -/
  | plus (x y z : VarId)
  /-- The product of `x` and `y` is `z`. -/
  | times (x y z : VarId)
  | lessThan (x : VarId) (bound : Int)
  | greaterThan (x : VarId) (bound : Int)
  | notEqual (x : VarId) (excluded : Int)
  /-- At any time the tasks that run use at most the capacity. -/
  | cumulative (tasks : List Task) (capacity : Int)
  | script (body : Script t)
  deriving DecidableEq, Repr

namespace Propagator
variable {t : ValueType}

def name : Propagator t → String
  | .plus .. => "Plus"
  | .times .. => "Times"
  | .lessThan .. => "LessThanConstant"
  | .greaterThan .. => "GreaterThanConstant"
  | .notEqual .. => "NotEqualConstant"
  | .cumulative .. => "Cumulative"
  | .script .. => "Custom"

/-- The changes that wake a propagator, in the order in which it subscribes to them. -/
def subscriptions : Propagator t → List (VarId × Trigger)
  | .plus x y z | .times x y z => [(x, .bound), (y, .bound), (z, .bound)]
  | .lessThan x _ | .greaterThan x _ => [(x, .bound)]
  | .notEqual x _ => [(x, .ground)]
  | .cumulative tasks _ =>
    tasks.flatMap fun task =>
      [(task.start, .bound), (task.duration, .bound), (task.resource, .bound)]
  | .script body => body.subscriptions

def failsAtRoot : Propagator t → Bool
  | .script body => body.failsAtRoot
  | _ => false

def propagate : Propagator t → Action (Store t) Unit
  | .plus x y z => propagateSum x y z
  | .times x y z => propagateProduct x y z
  | .lessThan x bound => do
    let _ ← narrowVar x (.atMost (t.pred bound))
    return ()
  | .greaterThan x bound => do
    let _ ← narrowVar x (.atLeast (t.succ bound))
    return ()
  | .notEqual x excluded => do
    let _ ← narrowVar x (.outside excluded excluded)
    return ()
  | .cumulative tasks capacity => propagateCumulative tasks capacity
  | .script body => body.propagate

def subscribeAll (c : ConstraintId) : List (VarId × Trigger) → Action (Store t) Unit
  | [] => return ()
  | (x, trigger) :: rest => do
    let _ ← (fun s => s.subscribe x c trigger : Action (Store t) Bool)
    subscribeAll c rest

/-- Prepares a propagator at the root under its id. -/
def subscribe (p : Propagator t) (c : ConstraintId) : Action (Store t) Unit := do
  subscribeAll c p.subscriptions
  if p.failsAtRoot then Action.failing else return ()

end Propagator
end FiniteDomains
