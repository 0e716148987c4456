import FiniteDomains.Domain.Basic

/-! Walks through a domain. A walk is asked for one item after another, value by value or run by
run in ascending order, until there is none; it keeps what it has not given yet. -/
namespace FiniteDomains
variable (t : ValueType)

/-- A walk through the values of a domain. -/
inductive ValueWalk where
  /-- Through what is left of an interval, if one is begun, and the intervals behind it. -/
  | intervals (begun : Option Interval) (rest : List Interval)
  | points (rest : List Int)
  deriving DecidableEq, Repr

namespace ValueWalk

/-- Gives the first value of an interval, which is left behind with its last one. -/
def giveFirst (r : Interval) (rest : List Interval) : Int × ValueWalk :=
  (r.lo, .intervals (if r.lo < r.hi then some ⟨t.succ r.lo, r.hi⟩ else none) rest)

def next? : ValueWalk → Option (Int × ValueWalk)
  | .intervals (some r) rest => some (giveFirst t r rest)
  | .intervals none (r :: rest) => some (giveFirst t r rest)
  | .intervals none [] => none
  | .points (v :: rest) => some (v, .points rest)
  | .points [] => none

end ValueWalk

inductive RunWalk where
  | intervals (rest : List Interval)
  | points (rest : List Int)
  deriving DecidableEq, Repr

namespace RunWalk

/-- The end of the run that goes on from `hi` into the values behind it, and what those leave. -/
def extend (hi : Int) : List Int → Int × List Int
  | [] => (hi, [])
  | v :: rest => if v = t.succ hi then extend v rest else (hi, v :: rest)

def next? : RunWalk → Option (Interval × RunWalk)
  | .intervals (r :: rest) => some (r, .intervals rest)
  | .intervals [] => none
  | .points (v :: rest) => some (⟨v, (extend t v rest).1⟩, .points (extend t v rest).2)
  | .points [] => none

end RunWalk

namespace Domain
variable {t}

def valueWalk : Domain t → ValueWalk
  | .intervals runs => .intervals none runs
  | .sparse values => .points values

def runWalk : Domain t → RunWalk
  | .intervals runs => .intervals runs
  | .sparse values => .points values

end Domain
end FiniteDomains
