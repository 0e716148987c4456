import FiniteDomains.Interval.Basic

/-! Bounds of sums, differences, products and squares over intervals, clamped to the universe. For
each operation there are the ends that it computes, and the interval that is made of them. Making
an interval fails if its ends are inverted, as those of a negation can be that leaves the word. -/
namespace FiniteDomains.Interval
variable (t : ValueType)

def add (x y : Interval) : Interval := ⟨t.clampedAdd x.lo y.lo, t.clampedAdd x.hi y.hi⟩

def neg (x : Interval) : Interval :=
  ⟨t.clamp (t.unchecked (-x.hi)), t.clamp (t.unchecked (-x.lo))⟩

/-- The sum with the negated operand, which has been clamped before it is added. -/
def sub (x y : Interval) : Interval := add t x (neg t y)

def hull (a b c d : Int) : Interval := ⟨min (min (min a b) c) d, max (max (max a b) c) d⟩

/-- The products lie between those of the ends. -/
def mul (x y : Interval) : Interval :=
  hull (t.clampedMul x.lo y.lo) (t.clampedMul x.lo y.hi)
    (t.clampedMul x.hi y.lo) (t.clampedMul x.hi y.hi)

/-- The squares lie between those of the ends, but from zero if there are values on both sides. -/
def square (x : Interval) : Interval :=
  let low := t.clampedMul x.lo x.lo
  let high := t.clampedMul x.hi x.hi
  ⟨if x.lo < 0 ∧ 0 < x.hi then 0 else min low high, max low high⟩

/-! ### Well-formed results -/

def checkedAdd (x y : Interval) : Except Fault Interval := (add t x y).checked

def checkedNeg (x : Interval) : Except Fault Interval := (neg t x).checked

def checkedSub (x y : Interval) : Except Fault Interval := do
  let negated ← checkedNeg t y
  checkedAdd t x negated

def checkedMul (x y : Interval) : Except Fault Interval := (mul t x y).checked

def checkedSquare (x : Interval) : Except Fault Interval := (square t x).checked

end FiniteDomains.Interval
