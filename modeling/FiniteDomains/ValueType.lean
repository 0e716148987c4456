/-! The value types of a solver. A value is an integer; a value type fixes the universe that
variables range over, which results a checked operation accepts, and what an unchecked operation
leaves of a result that does not fit. -/
namespace FiniteDomains

/-- A value type: a bounded universe of admissible values inside the values that fit. -/
structure ValueType where
  minValue : Int
  maxValue : Int
  /-- Whether a value can be stored; checked operations refuse the results that cannot. -/
  fits : Int → Bool
  /-- What an unchecked operation makes of an exact result that does not fit. -/
  overflow : Int → Int

/-- Counts of values stop here, at the greatest number of 64 bits. -/
def countLimit : Nat := 18446744073709551615

namespace ValueType

/-- Values of 32 bits, for any behaviour of the unchecked operations on overflow. -/
def overflowing32 (overflow : Int → Int) : ValueType where
  minValue := -536870910
  maxValue := 536870909
  fits v := decide (-2147483648 ≤ v ∧ v ≤ 2147483647)
  overflow := overflow

def overflowing64 (overflow : Int → Int) : ValueType where
  minValue := -2305843009213693950
  maxValue := 2305843009213693949
  fits v := decide (-9223372036854775808 ≤ v ∧ v ≤ 9223372036854775807)
  overflow := overflow

/-- Values of 32 bits. Results of unchecked operations beyond the word wrap around. -/
def int32 : ValueType := overflowing32 fun v => v.bmod 4294967296

def int64 : ValueType := overflowing64 fun v => v.bmod 18446744073709551616

/-- Integers of any size, with the universe of the 32 bit values. -/
def integer : ValueType where
  minValue := -536870910
  maxValue := 536870909
  fits _ := true
  overflow := id

variable (t : ValueType)

/-- What an unchecked operation with the exact result `v` gives. -/
def unchecked (v : Int) : Int := if t.fits v then v else t.overflow v

def succ (v : Int) : Int := t.unchecked (v + 1)

def pred (v : Int) : Int := t.unchecked (v - 1)

def clamp (v : Int) : Int := max t.minValue (min t.maxValue v)

def add? (x y : Int) : Option Int := if t.fits (x + y) then some (x + y) else none

def mul? (x y : Int) : Option Int := if t.fits (x * y) then some (x * y) else none

/-- The sum clamped to the universe; a sum that does not fit goes to the end of the sign of `x`. -/
def clampedAdd (x y : Int) : Int :=
  match t.add? x y with
  | some sum => t.clamp sum
  | none => if x < 0 then t.minValue else t.maxValue

def clampedSub (x y : Int) : Int := t.clampedAdd x (t.clamp (t.unchecked (-y)))

/-- The product clamped to the universe; one that does not fit goes to the end of its sign. -/
def clampedMul (x y : Int) : Int :=
  match t.mul? x y with
  | some product => t.clamp product
  | none => if decide (x < 0) != decide (y < 0) then t.minValue else t.maxValue

/-- The number of values from `lo` to `hi`, stopping at the count limit. -/
def count (lo hi : Int) : Nat :=
  if hi < lo then 0
  else
    let exact := t.unchecked (t.unchecked (hi - lo) + 1)
    if 0 ≤ exact ∧ exact ≤ countLimit then exact.toNat else countLimit

/-- The value `places` above `v`; if that many is itself no value, the greatest of the universe. -/
def offset (v : Int) (places : Nat) : Int :=
  if t.fits places then t.unchecked (v + places) else t.maxValue

def ascending (lo : Int) : Nat → List Int
  | 0 => [lo]
  | steps + 1 => lo :: ascending (t.succ lo) steps

end ValueType
end FiniteDomains
