import FiniteDomains.Proofs.Interval.Division

/-! Arithmetic that hands each step it takes without a check to a function, which gives the result
of the step or refuses it. With the function of a value type that refuses nothing this is the
arithmetic of the value type. With the one that refuses results that do not fit it still is, for
operands in the universe: there no step leaves the word. -/
namespace FiniteDomains
variable {t t' : ValueType} {step : Int → Option Int} {P : Int → Prop}

namespace ValueType
variable {x y v : Int} {places steps : Nat}

/-- Takes every step, with what is left of a result that does not fit. -/
def wrapping (t : ValueType) (v : Int) : Option Int := some (t.unchecked v)

/-- Takes the steps with results that fit, and refuses the others. -/
def guarded (t : ValueType) (v : Int) : Option Int := if t.fits v then some v else none

section
variable (step)

def countBy (lo hi : Int) : Option Nat :=
  if hi < lo then some 0
  else do
    let difference ← step (hi - lo)
    let exact ← step (difference + 1)
    return if 0 ≤ exact ∧ exact ≤ countLimit then exact.toNat else countLimit

def offsetBy (t : ValueType) (v : Int) (places : Nat) : Option Int :=
  if t.fits places then step (v + places) else some t.maxValue

def ascendingBy (lo : Int) : Nat → Option (List Int)
  | 0 => some [lo]
  | steps + 1 => do
    let next ← step (lo + 1)
    let rest ← ascendingBy next steps
    return lo :: rest

end

/-- The exact results of all unchecked steps that operations take from values with a property, and
from what such steps have given before. -/
inductive Reached (t : ValueType) (P : Int → Prop) : Int → Prop
  | succ {x : Int} : P x → Reached t P (x + 1)
  | pred {x : Int} : P x → Reached t P (x - 1)
  | sum {x y : Int} : P x → P y → Reached t P (x + y)
  | sum_succ {x y : Int} : P x → P y → Reached t P (t.unchecked (x + y) + 1)
  | sum_pred {x y : Int} : P x → P y → Reached t P (t.unchecked (x + y) - 1)
  | difference {x y : Int} : P x → P y → x ≤ y → Reached t P (y - x)
  | number {x y : Int} : P x → P y → x ≤ y → Reached t P (t.unchecked (y - x) + 1)
  | place {x y : Int} {places : Nat} : P x → P y → places < t.count x y → Reached t P (x + places)
  | neg {x : Int} : P x → Reached t P (-x)
  | natAbs {x : Int} : P x → Reached t P x.natAbs
  | magnitude {x y : Int} : P x → P y →
      Reached t P (-max (t.unchecked x.natAbs) (t.unchecked y.natAbs))
  | truncated {x : Int} (y : Int) : P x → Reached t P (x.tdiv y)
  | floor {x : Int} (y : Int) : P x → Reached t P (x.fdiv y)
  | neg_floor {x : Int} (y : Int) : P x → Reached t P ((t.unchecked (-x)).fdiv y)
  | ceil {x : Int} (y : Int) : P x → Reached t P (-t.unchecked ((t.unchecked (-x)).fdiv y))

/-- The function takes all steps from values with a property as the value type does, and a walk from
one of them to another only meets such values. -/
structure Follows (t : ValueType) (step : Int → Option Int) (P : Int → Prop) : Prop where
  take : ∀ v, t.Reached P v → step v = some (t.unchecked v)
  walk : ∀ x y steps, P x → P y → steps ≤ (y - x).toNat → ∀ v ∈ t.ascending x steps, P v

theorem wrapping_follows (t : ValueType) : t.Follows t.wrapping fun _ => True where
  take := fun _ _ => rfl
  walk := fun _ _ _ _ _ _ _ _ => trivial

namespace Follows
variable (h : t.Follows step P)
include h

theorem succ (hx : P x) : step (x + 1) = some (t.succ x) := h.take _ (.succ hx)

theorem pred (hx : P x) : step (x - 1) = some (t.pred x) := h.take _ (.pred hx)

theorem count (hx : P x) (hy : P y) : countBy step x y = some (t.count x y) := by
  simp only [countBy, ValueType.count]
  split
  · rfl
  · simp [h.take _ (.difference hx hy (by omega)), h.take _ (.number hx hy (by omega))]

omit h in
theorem ascendingBy_eq (hsucc : ∀ x, P x → step (x + 1) = some (t.succ x))
    (hwalk : ∀ v ∈ t.ascending x steps, P v) :
    ascendingBy step x steps = some (t.ascending x steps) := by
  induction steps generalizing x with
  | zero => rfl
  | succ steps ih =>
    obtain ⟨hx, hrest⟩ := List.forall_mem_cons.mp hwalk
    simp [ascendingBy, ValueType.ascending, hsucc x hx, ih hrest]

theorem ascending (hx : P x) (hy : P y) (hsteps : steps ≤ (y - x).toNat) :
    ascendingBy step x steps = some (t.ascending x steps) :=
  ascendingBy_eq (fun _ => h.succ) (h.walk x y steps hx hy hsteps)

end Follows

/-! ### Steps inside the universe -/

variable [t.Lawful]

/-- Steps from values of the universe give results that are no further away from zero than the
values beside a sum of two of them. -/
theorem Reached.near (h : t.Reached t.Admissible v) :
    -(2 * t.maxValue + 3) ≤ v ∧ v ≤ 2 * t.maxValue + 3 := by
  have hmin := Lawful.min_eq (t := t)
  have hmax := Lawful.one_le_max (t := t)
  have hkeep {v : Int} (hlo : -(2 * t.maxValue + 3) ≤ v) (hhi : v ≤ 2 * t.maxValue + 3) :
      t.unchecked v = v :=
    unchecked_eq (Lawful.fits_near v hlo hhi)
  have hneg {x : Int} (hx : t.Admissible x) :
      t.unchecked (-x) = -x ∧ -(t.maxValue + 1) ≤ -x ∧ -x ≤ t.maxValue + 1 := by
    have hmag := Interval.magnitude_le hx
    exact ⟨hkeep (by omega) (by omega), by omega, by omega⟩
  cases h with
  | succ hx | pred hx | neg hx | natAbs hx =>
    have hmag := Interval.magnitude_le hx
    omega
  | sum hx hy | difference hx hy _ =>
    have hmag := Interval.magnitude_le hx
    have hmag' := Interval.magnitude_le hy
    obtain ⟨hxlo, hxhi⟩ := hx
    obtain ⟨hylo, hyhi⟩ := hy
    omega
  | sum_succ hx hy | sum_pred hx hy | number hx hy _ =>
    obtain ⟨hxlo, hxhi⟩ := hx
    obtain ⟨hylo, hyhi⟩ := hy
    rw [hkeep (by omega) (by omega)]
    omega
  | place hx hy hplaces =>
    rw [count_eq hx hy] at hplaces
    obtain ⟨hxlo, hxhi⟩ := hx
    obtain ⟨hylo, hyhi⟩ := hy
    omega
  | magnitude hx hy =>
    have hmag := Interval.magnitude_le hx
    have hmag' := Interval.magnitude_le hy
    rw [hkeep (by omega) (by omega), hkeep (by omega) (by omega)]
    omega
  | truncated y hx =>
    have hquot := Interval.tdiv_magnitude (b := y) (Interval.magnitude_le hx)
    omega
  | floor y hx =>
    have hquot := Interval.fdiv_magnitude (b := y) (Interval.magnitude_le hx)
    omega
  | neg_floor y hx =>
    have hquot := Interval.fdiv_magnitude (b := y) (hneg hx).2
    rw [(hneg hx).1]
    omega
  | ceil y hx =>
    have hquot := Interval.fdiv_magnitude (b := y) (hneg hx).2
    rw [(hneg hx).1, hkeep (by omega) (by omega)]
    omega

theorem follows_of_near
    (hstep : ∀ v, -(2 * t.maxValue + 3) ≤ v → v ≤ 2 * t.maxValue + 3 → step v = some v) :
    t.Follows step t.Admissible where
  take := by
    intro v hv
    obtain ⟨hlo, hhi⟩ := hv.near
    rw [hstep v hlo hhi, unchecked_eq (Lawful.fits_near v hlo hhi)]
  walk := by
    intro x y steps hx hy hsteps v hv
    obtain ⟨hxlo, hxhi⟩ := hx
    obtain ⟨hylo, hyhi⟩ := hy
    have hmem : v ∈ t.ascending x steps ↔ x ≤ v ∧ v ≤ x + steps :=
      mem_ascending fun w hlo hhi => Admissible.fits ⟨by omega, by omega⟩
    rw [hmem] at hv
    exact ⟨by omega, by omega⟩

/-- The word has room for all steps inside the universe. -/
theorem guarded_follows (t : ValueType) [t.Lawful] : t.Follows t.guarded t.Admissible :=
  follows_of_near fun v hlo hhi => if_pos (Lawful.fits_near v hlo hhi)

end ValueType

/-- The programs of `t₀`, with the function for their steps, come to what `t` does: the function
takes the steps of `t`, the universes are the same, and checked operations give the same. -/
structure ValueType.Simulates (t₀ t : ValueType) (step : Int → Option Int) (P : Int → Prop) : Prop
    extends t.Follows step P where
  minValue : t₀.minValue = t.minValue
  maxValue : t₀.maxValue = t.maxValue
  fits_places {x y : Int} {places : Nat} :
    P x → P y → places < t.count x y → t₀.fits places = t.fits places
  clampedAdd {x y : Int} : P x → P y → t₀.clampedAdd x y = t.clampedAdd x y
  clampedMul (x y : Int) : t₀.clampedMul x y = t.clampedMul x y
  clamped (v : Int) : P (t.clamp v)

namespace ValueType
variable {x y : Int} {places : Nat}

theorem Follows.simulates (h : t.Follows step P) (hclamp : ∀ v, P (t.clamp v)) :
    t.Simulates t step P :=
  { h with
    minValue := rfl
    maxValue := rfl
    fits_places := fun _ _ _ => rfl
    clampedAdd := fun _ _ => rfl
    clampedMul := fun _ _ => rfl
    clamped := hclamp }

theorem wrapping_simulates (t : ValueType) : t.Simulates t t.wrapping fun _ => True :=
  t.wrapping_follows.simulates fun _ => trivial

theorem guarded_simulates (t : ValueType) [t.Lawful] : t.Simulates t t.guarded t.Admissible :=
  t.guarded_follows.simulates clamp_admissible

/-- What one type has room for comes to what another type with the same universe does. -/
theorem guarded_simulates_shared [t.Lawful] [t'.Lawful] (hmin : t.minValue = t'.minValue)
    (hmax : t.maxValue = t'.maxValue) : t.Simulates t' t.guarded t'.Admissible := by
  have hadmissible {v : Int} (hv : t'.Admissible v) : t.Admissible v := by
    simpa only [Admissible, hmin, hmax] using hv
  have hclamp (v : Int) : t.clamp v = t'.clamp v := by
    simp only [ValueType.clamp, hmin, hmax]
  have hfollows : t'.Follows t.guarded t'.Admissible := by
    refine follows_of_near fun v hlo hhi => if_pos (Lawful.fits_near v ?_ ?_)
    · rwa [hmax]
    · rwa [hmax]
  exact {
    hfollows with
    minValue := hmin
    maxValue := hmax
    fits_places := by
      intro x y places hx hy hplaces
      rw [count_eq hx hy] at hplaces
      obtain ⟨hxlo, hxhi⟩ := hx
      obtain ⟨hylo, hyhi⟩ := hy
      have hmin' := Lawful.min_eq (t := t')
      rw [Lawful.fits_near (t := t) places (by omega) (by omega),
        Lawful.fits_near (t := t') places (by omega) (by omega)]
    clampedAdd := fun hx hy => by
      rw [clampedAdd_eq (hadmissible hx) (hadmissible hy), clampedAdd_eq hx hy, hclamp]
    clampedMul := fun x y => by rw [clampedMul_eq, clampedMul_eq, hclamp]
    clamped := clamp_admissible }

namespace Simulates
variable {t₀ : ValueType} (h : t₀.Simulates t step P)
include h

theorem clamp (v : Int) : t₀.clamp v = t.clamp v := by
  simp only [ValueType.clamp, h.minValue, h.maxValue]

theorem offset (hx : P x) (hy : P y) (hplaces : places < t.count x y) :
    offsetBy step t₀ x places = some (t.offset x places) := by
  simp only [offsetBy, ValueType.offset, h.fits_places hx hy hplaces, h.maxValue]
  split
  · exact h.take _ (.place hx hy hplaces)
  · rfl

end Simulates
end ValueType

namespace Interval
variable {t₀ : ValueType} {x y n d : Interval} {kind : QuotientKind} {a b : Int}

section
variable (t) (step)

def checkedNegBy (x : Interval) : Option (Except Fault Interval) := do
  let lo ← step (-x.hi)
  let hi ← step (-x.lo)
  return make (t.clamp lo) (t.clamp hi)

def checkedSubBy (x y : Interval) : Option (Except Fault Interval) := do
  let negated ← checkedNegBy t step y
  return negated >>= checkedAdd t x

def ceilQuotientBy (a b : Int) : Option Int := do
  let negated ← step (-a)
  let quotient ← step (negated.fdiv b)
  step (-quotient)

def endsHullBy (quotient : Int → Int → Option Int) (n d : Interval) : Option Interval := do
  let first ← quotient n.lo d.lo
  let second ← quotient n.lo d.hi
  let third ← quotient n.hi d.lo
  let fourth ← quotient n.hi d.hi
  return hull first second third fourth

def signedQuotientsBy (kind : QuotientKind) (n d : Interval) :
    Option (Except DivisionError Interval) :=
  match kind with
  | .truncated => do
    let r ← endsHullBy (fun a b => step (a.tdiv b)) n d
    return .ok r
  | .factor => do
    let lower ← endsHullBy (ceilQuotientBy step) n d
    let upper ← endsHullBy (fun a b => step (a.fdiv b)) n d
    return if upper.hi < lower.lo then .error .noQuotient else .ok ⟨lower.lo, upper.hi⟩

def checkedDivBy (kind : QuotientKind) (n d : Interval) :
    Option (Except Fault (Except DivisionError Interval)) :=
  if n.hasZero && d.hasZero then some (.ok (.ok (whole t)))
  else if d.avoidsZero then do
    let quotients ← signedQuotientsBy step kind n d
    return checkedQuotients quotients
  else if d.lo = 0 ∧ d.hi = 0 then some (.ok (.error .byZero))
  else if d.lo < 0 ∧ 0 < d.hi then do
    let first ← step n.lo.natAbs
    let last ← step n.hi.natAbs
    let lo ← step (-max first last)
    return (make lo (max first last)).map .ok
  else
    match if d.lo = 0 then make 1 d.hi else make d.lo (-1) with
    | .ok part => do
      let quotients ← signedQuotientsBy step kind n part
      return checkedQuotients quotients
    | .error cause => some (.error cause)

end

inductive Operation where
  | add
  | sub
  | neg
  | mul
  | square
  | div (kind : QuotientKind)
  deriving DecidableEq, Repr

def Operation.perform (t : ValueType) (x y : Interval) :
    Operation → Except Fault (Except DivisionError Interval)
  | .add => (checkedAdd t x y).map .ok
  | .sub => (checkedSub t x y).map .ok
  | .neg => (checkedNeg t x).map .ok
  | .mul => (checkedMul t x y).map .ok
  | .square => (checkedSquare t x).map .ok
  | .div kind => checkedDiv t kind x y

/-- Applies a function, handing over each step. Sums and products are checked, so that there are
none. -/
def Operation.performBy (t : ValueType) (step : Int → Option Int) (x y : Interval) :
    Operation → Option (Except Fault (Except DivisionError Interval))
  | .sub => (checkedSubBy t step x y).map (Except.map .ok)
  | .neg => (checkedNegBy t step x).map (Except.map .ok)
  | .div kind => checkedDivBy t step kind x y
  | operation => some (operation.perform t x y)

section
variable (h : t₀.Simulates t step P)
include h

theorem checkedAdd_simulated (hx : x.EndsIn P) (hy : y.EndsIn P) :
    checkedAdd t₀ x y = checkedAdd t x y := by
  simp only [checkedAdd, add, h.clampedAdd hx.lo hy.lo, h.clampedAdd hx.hi hy.hi]

theorem checkedNegBy_eq (hx : x.EndsIn P) :
    checkedNegBy t₀ step x = some (checkedNeg t x) := by
  simp [checkedNegBy, h.take _ (.neg hx.lo), h.take _ (.neg hx.hi), h.clamp, checkedNeg, checked,
    neg]

theorem checkedSubBy_eq (hx : x.EndsIn P) (hy : y.EndsIn P) :
    checkedSubBy t₀ step x y = some (checkedSub t x y) := by
  have hneg : (neg t y).EndsIn P := ⟨h.clamped _, h.clamped _⟩
  rw [checkedSubBy, checkedNegBy_eq h hy, checkedSub, checkedNeg, checked, make]
  split
  · exact congrArg some (checkedAdd_simulated h hx hneg)
  · rfl

theorem ceilQuotientBy_eq (ha : P a) (b : Int) :
    ceilQuotientBy step a b = some (ceilQuotient t a b) := by
  simp [ceilQuotientBy, ceilQuotient, h.take _ (.neg ha), h.take _ (.neg_floor b ha),
    h.take _ (.ceil b ha)]

omit h in
theorem endsHullBy_eq {quotient : Int → Int → Option Int} {f : Int → Int → Int}
    (hf : ∀ a b, P a → quotient a b = some (f a b)) (hn : n.EndsIn P) (d : Interval) :
    endsHullBy quotient n d = some (endsHull f n d) := by
  simp [endsHullBy, endsHull, hf _ _ hn.lo, hf _ _ hn.hi]

theorem signedQuotientsBy_eq (hn : n.EndsIn P) (kind : QuotientKind) (d : Interval) :
    signedQuotientsBy step kind n d = some (signedQuotients t kind n d) := by
  have hfloor : endsHullBy (fun a b => step (a.fdiv b)) n d =
      some (endsHull (floorQuotient t) n d) :=
    endsHullBy_eq (fun a b ha => h.take _ (.floor (x := a) b ha)) hn d
  have hceil := endsHullBy_eq (fun _ b ha => ceilQuotientBy_eq h ha b) hn d
  have htruncated : endsHullBy (fun a b => step (a.tdiv b)) n d =
      some (endsHull (truncatedQuotient t) n d) :=
    endsHullBy_eq (fun a b ha => h.take _ (.truncated (x := a) b ha)) hn d
  cases kind with
  | truncated => simp [signedQuotientsBy, signedQuotients, htruncated]
  | factor => simp [signedQuotientsBy, signedQuotients, hfloor, hceil]

theorem checkedDivBy_eq (hn : n.EndsIn P) (kind : QuotientKind) (d : Interval) :
    checkedDivBy t₀ step kind n d = some (checkedDiv t kind n d) := by
  have hmagnitude := h.take _ (.magnitude hn.lo hn.hi)
  simp only [checkedDivBy, checkedDiv, signedQuotientsBy_eq h hn, h.take _ (.natAbs hn.lo),
    h.take _ (.natAbs hn.hi), whole, h.minValue, h.maxValue]
  split_ifs
  · rfl
  · rfl
  · rfl
  · simp only [Option.bind_eq_bind, Option.bind_some, hmagnitude]
    rfl
  · cases make 1 d.hi <;> rfl
  · cases make d.lo (-1) <;> rfl

/-- Interval arithmetic that hands its steps over comes to that of the value type. -/
theorem performBy_eq (hx : x.EndsIn P) (hy : y.EndsIn P) (operation : Operation) :
    operation.performBy t₀ step x y = some (operation.perform t x y) := by
  cases operation with
  | add => simp only [Operation.performBy, Operation.perform, checkedAdd_simulated h hx hy]
  | sub => rw [Operation.performBy, checkedSubBy_eq h hx hy]; rfl
  | neg => rw [Operation.performBy, checkedNegBy_eq h hx]; rfl
  | mul => simp only [Operation.performBy, Operation.perform, checkedMul, mul, h.clampedMul]
  | square =>
    simp only [Operation.performBy, Operation.perform, checkedSquare, square, h.clampedMul]
  | div kind => exact checkedDivBy_eq h hx kind y

end
end Interval
end FiniteDomains
