import FiniteDomains.Domain.Description
import FiniteDomains.Propagator.Bounds

/-! Propagators given by a list of narrowings. -/
namespace FiniteDomains

/-- One narrowing, which may depend on the current domain of another variable. -/
inductive ScriptStep (t : ValueType) where
  | narrow (x : VarId) (narrowing : Narrowing t)
  /-- Keeps in `x` the values of a domain that is made when the step is performed. -/
  | memberOf (x : VarId) (description : DomainDescription)
  /-- Keeps `x` at least `gap` below the greatest value of `y`. -/
  | below (x y : VarId) (gap : Int)
  /-- Keeps in `x` the values that are `offset` above a value of `y`. -/
  | equalShifted (x y : VarId) (offset : Int)
  deriving DecidableEq, Repr

/-- A propagator that waits for some changes and performs its steps when it is run. -/
structure Script (t : ValueType) where
  subscriptions : List (VarId × Trigger)
  /-- Whether it fails when it is posted, after having subscribed. -/
  failsAtRoot : Bool
  steps : List (ScriptStep t)
  /-- Whether it fails when it is run, after its steps. -/
  fails : Bool
  deriving DecidableEq, Repr

variable {t : ValueType}

def ScriptStep.perform : ScriptStep t → Action (Store t) Change
  | .narrow x narrowing => narrowVar x narrowing
  | .memberOf x description => do
    let d ← Action.reading fun _ => description.domain
    narrowVar x (.memberOf d)
  | .below x y gap => do
    let greatest ← Action.reading fun s => s.upperBound y
    narrowVar x (.atMost (t.unchecked (greatest - gap)))
  | .equalShifted x y offset => do
    let d ← Action.reading fun s => s.domain y
    narrowVar x (.shiftedMemberOf d offset)

def performAll : List (ScriptStep t) → Action (Store t) Unit
  | [] => return ()
  | step :: steps => do
    let _ ← step.perform
    performAll steps

def Script.propagate (script : Script t) : Action (Store t) Unit := do
  performAll script.steps
  if script.fails then Action.failing else return ()

end FiniteDomains
