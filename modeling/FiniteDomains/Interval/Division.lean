import FiniteDomains.Interval.Arithmetic

/-! Bounds of quotients. A quotient is rounded toward zero, or it is the other factor of a product,
in which case the bounds are rounded inwards and there may be none. Quotients are not clamped. -/
namespace FiniteDomains

inductive QuotientKind where
  /-- The exact quotient rounded toward zero. -/
  | truncated
  /-- An integer that multiplied by the divisor gives the dividend. -/
  | factor
  deriving DecidableEq, Repr

/-- Why there are no quotients. -/
inductive DivisionError where
  | byZero
  | noQuotient
  deriving DecidableEq, Repr

def DivisionError.message : DivisionError → String
  | .byZero => "division by zero"
  | .noQuotient => "no integer quotient exists"

namespace Interval
variable (t : ValueType)

def floorQuotient (a b : Int) : Int := t.unchecked (a.fdiv b)

def ceilQuotient (a b : Int) : Int :=
  t.unchecked (-(t.unchecked ((t.unchecked (-a)).fdiv b)))

def truncatedQuotient (a b : Int) : Int := t.unchecked (a.tdiv b)

def endsHull (f : Int → Int → Int) (n d : Interval) : Interval :=
  hull (f n.lo d.lo) (f n.lo d.hi) (f n.hi d.lo) (f n.hi d.hi)

/-- The quotients by a divisor without zero, which lie between those of the ends. -/
def signedQuotients (kind : QuotientKind) (n d : Interval) : Except DivisionError Interval :=
  match kind with
  | .truncated => .ok (endsHull (truncatedQuotient t) n d)
  | .factor =>
    let lo := (endsHull (ceilQuotient t) n d).lo
    let hi := (endsHull (floorQuotient t) n d).hi
    if hi < lo then .error .noQuotient else .ok ⟨lo, hi⟩

/-- The quotients of `n` by `d`. Where both hold zero every value is one. A divisor that only
touches zero is cut back to its nonzero part, and one that reaches over zero on both sides gives
quotients up to the magnitude of the dividend with either sign. -/
def div (kind : QuotientKind) (n d : Interval) : Except DivisionError Interval :=
  if n.hasZero && d.hasZero then .ok (whole t)
  else if d.avoidsZero then signedQuotients t kind n d
  else if d.lo = 0 ∧ d.hi = 0 then .error .byZero
  else if d.lo < 0 ∧ 0 < d.hi then
    let magnitude := max (t.unchecked n.lo.natAbs) (t.unchecked n.hi.natAbs)
    .ok ⟨t.unchecked (-magnitude), magnitude⟩
  else if d.lo = 0 then signedQuotients t kind n ⟨1, d.hi⟩
  else signedQuotients t kind n ⟨d.lo, -1⟩

def checkedQuotients :
    Except DivisionError Interval → Except Fault (Except DivisionError Interval)
  | .ok r => r.checked.map .ok
  | .error cause => .ok (.error cause)

/-- The quotients of `n` by `d`, where each interval on the way to them is well formed. -/
def checkedDiv (kind : QuotientKind) (n d : Interval) :
    Except Fault (Except DivisionError Interval) :=
  if n.hasZero && d.hasZero then .ok (.ok (whole t))
  else if d.avoidsZero then checkedQuotients (signedQuotients t kind n d)
  else if d.lo = 0 ∧ d.hi = 0 then .ok (.error .byZero)
  else if d.lo < 0 ∧ 0 < d.hi then
    let magnitude := max (t.unchecked n.lo.natAbs) (t.unchecked n.hi.natAbs)
    (make (t.unchecked (-magnitude)) magnitude).map .ok
  else do
    let part ← if d.lo = 0 then make 1 d.hi else make d.lo (-1)
    checkedQuotients (signedQuotients t kind n part)

end Interval
end FiniteDomains
