import FiniteDomains.Domain.Basic

/-! Domains that are described but not made yet. A description may name ranges that are inverted,
which shows only when the domain is made. -/
namespace FiniteDomains

/-- The ways to describe a domain by its ranges or its values. -/
inductive DomainDescription where
  | empty
  | range (lo hi : Int)
  /-- All values of some ranges, each given by its two ends. -/
  | ranges (ends : List (Int × Int))
  | values (values : List Int)
  | rangeSparse (lo hi : Int)
  deriving DecidableEq, Repr

namespace DomainDescription

/-- The intervals with the given ends; the first inverted pair is refused. -/
def intervals : List (Int × Int) → Except Fault (List Interval)
  | [] => return []
  | ends :: rest => do
    let r ← Interval.make ends.1 ends.2
    let rs ← intervals rest
    return r :: rs

def domain {t : ValueType} : DomainDescription → Except Fault (Domain t)
  | .empty => return .empty
  | .range lo hi => Domain.ofRange lo hi
  | .ranges ends => do
    let rs ← intervals ends
    return .ofIntervals rs
  | .values vs => return .ofValues vs
  | .rangeSparse lo hi => Domain.ofRangeSparse lo hi

end DomainDescription
end FiniteDomains
