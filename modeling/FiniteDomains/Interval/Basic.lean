import FiniteDomains.Fault
import FiniteDomains.ValueType

/-! Closed intervals of integers, given by their ends. -/
namespace FiniteDomains

/-- The values from `lo` to `hi`; well formed when `lo ≤ hi`. -/
structure Interval where
  lo : Int
  hi : Int
  deriving DecidableEq, Repr, Inhabited

namespace Interval

instance : Membership Int Interval := ⟨fun r v => r.lo ≤ v ∧ v ≤ r.hi⟩

/-- The interval with the given ends, which must not be inverted. -/
def make (lo hi : Int) : Except Fault Interval :=
  if lo ≤ hi then .ok ⟨lo, hi⟩ else .error (.malformedInterval lo hi)

def checked (r : Interval) : Except Fault Interval := make r.lo r.hi

def singleton (v : Int) : Interval := ⟨v, v⟩

def whole (t : ValueType) : Interval := ⟨t.minValue, t.maxValue⟩

def size (t : ValueType) (r : Interval) : Nat := t.count r.lo r.hi

def isSingleton (r : Interval) : Bool := decide (r.lo = r.hi)

def contains (r : Interval) (v : Int) : Bool := decide (r.lo ≤ v) && decide (v ≤ r.hi)

def hasZero (r : Interval) : Bool := !decide (0 < r.lo) && !decide (r.hi < 0)

def avoidsZero (r : Interval) : Bool := decide (0 < r.lo) || decide (r.hi < 0)

def text (r : Interval) : String := rangeText r.lo r.hi

def values (t : ValueType) (r : Interval) : List Int :=
  if r.hi < r.lo then [] else t.ascending r.lo (r.hi - r.lo).toNat

end Interval
end FiniteDomains
