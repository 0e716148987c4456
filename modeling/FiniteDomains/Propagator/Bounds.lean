import FiniteDomains.Interval.Division
import FiniteDomains.Store.Update

/-! Narrowing the bounds of variables to those of a sum or a product. -/
namespace FiniteDomains
variable {t : ValueType}

def narrowVar (x : VarId) (narrowing : Narrowing t) : Action (Store t) Change :=
  fun s => s.narrow x narrowing

def boundsOf (x : VarId) : Action (Store t) Interval := Action.reading fun s => s.bounds x

def narrowInto (x : VarId) (r : Interval) : Action (Store t) Change :=
  narrowVar x (.within r.lo r.hi)

/-- Narrows a variable to quotients; where there are none no value is left. -/
def narrowIntoQuotients (x : VarId) : Except DivisionError Interval → Action (Store t) Change
  | .ok r => narrowInto x r
  | .error _ => Action.failing

def propagateSum (x y z : VarId) : Action (Store t) Unit := do
  let xs ← boundsOf x
  let ys ← boundsOf y
  let sums ← Action.lift (Interval.checkedAdd t xs ys)
  let _ ← narrowInto z sums
  let zs ← boundsOf z
  let differences ← Action.lift (Interval.checkedSub t zs ys)
  let _ ← narrowInto x differences
  let xs ← boundsOf x
  let differences ← Action.lift (Interval.checkedSub t zs xs)
  let _ ← narrowInto y differences
  return ()

def propagateProduct (x y z : VarId) : Action (Store t) Unit := do
  let xs ← boundsOf x
  let ys ← boundsOf y
  let products ← Action.lift (Interval.checkedMul t xs ys)
  let _ ← narrowInto z products
  let zs ← boundsOf z
  let quotients ← Action.lift (Interval.checkedDiv t .factor zs ys)
  let _ ← narrowIntoQuotients x quotients
  let xs ← boundsOf x
  let quotients ← Action.lift (Interval.checkedDiv t .factor zs xs)
  let _ ← narrowIntoQuotients y quotients
  return ()

end FiniteDomains
