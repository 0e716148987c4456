import FiniteDomains.Engine.Basic

/-! Depth-first search for solutions. A variable is fixed to its least value, and when that has
been searched the value is removed. -/
namespace FiniteDomains.Engine
variable {t : ValueType}

def firstUnfixed (s : Store t) : List VarId → Except Fault (Option VarId)
  | [] => return none
  | x :: xs => do
    let fixed ← s.isFixed x
    if fixed then firstUnfixed s xs else return some x

def solution (s : Store t) : List VarId → Except Fault (List Int)
  | [] => return []
  | x :: xs => do
    let v ← s.lowerBound x
    let vs ← solution s xs
    return v :: vs

/-- How a search has ended: whether it was stopped, where it left the engine, and the solutions
that it has found. -/
structure Search (t : ValueType) where
  stopped : Bool
  engine : Engine t
  solutions : List (List Int)
  deriving DecidableEq, Repr

def branch (search : Engine t → Except Fault (Search t)) (e : Engine t) (x : VarId)
    (narrowing : Narrowing t) : Except Fault (Search t) :=
  match e.store.pushLevel.narrow x narrowing with
  | .done s _ => search (e.withStore s)
  | .emptied s => .ok ⟨false, e.withStore s, []⟩
  | .fault cause => .error cause

/-- Searches until `wanted` solutions are found, branching less than `depth` times in a row. -/
def searchFrom (xs : List VarId) : Nat → Nat → Engine t → Except Fault (Search t)
  | 0, _, _ => .error .unsettled
  | depth + 1, wanted, e =>
    match e.propagate with
    | .fault cause => .error cause
    | .emptied e => .ok ⟨false, e, []⟩
    | .done e () => do
      match ← firstUnfixed e.store xs with
      | none =>
        let found ← solution e.store xs
        return ⟨decide (wanted ≤ 1), e, [found]⟩
      | some x =>
        let v ← e.store.lowerBound x
        let left ← branch (searchFrom xs depth wanted) e x (.equalTo v)
        if left.stopped then return left
        else
          let back ← left.engine.backtrack e.store.level
          let wanted := wanted - left.solutions.length
          let right ← branch (searchFrom xs depth wanted) back x (.outside v v)
          let solutions := left.solutions ++ right.solutions
          if right.stopped then return ⟨true, right.engine, solutions⟩
          else
            let back ← right.engine.backtrack e.store.level
            return ⟨false, back, solutions⟩

/-- Searches for solutions until there are `limit` of them, one at least. Each branch takes a value
from its variable, so no more of them follow on each other than there are values. -/
def label (e : Engine t) (xs : List VarId) (limit : Nat) : Except Fault (Search t) :=
  searchFrom xs (e.store.cardinality + 1) limit e

end FiniteDomains.Engine
