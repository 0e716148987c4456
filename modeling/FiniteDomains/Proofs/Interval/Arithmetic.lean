import FiniteDomains.Interval.Arithmetic
import FiniteDomains.Proofs.Domain.Runs
import FiniteDomains.Proofs.Outcome
import Mathlib.Data.Int.Order.Lemmas
import Mathlib.Order.Interval.Set.UnorderedInterval

/-! Sums, differences, products and squares of values lie in the intervals computed for them, as
long as they are values of the universe. There is one exception: the least value has no negation in
the universe, so a difference with it may be lost. -/
namespace FiniteDomains.Interval
variable {t : ValueType} {x y : Interval} {a b lo hi v : Int}

/-- An interval of values with a property. -/
structure EndsIn (P : Int → Prop) (r : Interval) : Prop where
  lo : P r.lo
  hi : P r.hi

theorem EndsIn.imp {P Q : Int → Prop} {r : Interval} (h : r.EndsIn P)
    (himp : ∀ v, P v → Q v) : r.EndsIn Q :=
  ⟨himp _ h.lo, himp _ h.hi⟩

/-- An interval with ends in order that can be negated. -/
structure Sturdy (t : ValueType) (r : Interval) : Prop where
  le : r.lo ≤ r.hi
  ends : r.EndsIn t.Negatable

theorem make_eq (h : lo ≤ hi) : make lo hi = .ok ⟨lo, hi⟩ := if_pos h

theorem checked_eq {r : Interval} (h : r.lo ≤ r.hi) : r.checked = .ok r := make_eq h

theorem make_onlyMalformed (lo hi : Int) : OnlyMalformed (make lo hi) := by
  intro cause h
  simp only [make] at h
  split at h
  · cases h
  · cases h
    exact ⟨lo, hi, rfl⟩

theorem checkedSub_onlyMalformed : OnlyMalformed (checkedSub t x y) :=
  (make_onlyMalformed _ _).bind fun _ => make_onlyMalformed _ _

theorem neg_le (hx : x.Sturdy t) : (neg t x).lo ≤ (neg t x).hi := by
  simp only [neg, ValueType.unchecked_eq hx.ends.lo.2, ValueType.unchecked_eq hx.ends.hi.2]
  exact ValueType.clamp_le_clamp (Int.neg_le_neg hx.le)

theorem mem_hull {a b c d : Int} : v ∈ hull a b c d ↔
    (a ≤ v ∨ b ≤ v ∨ c ≤ v ∨ d ≤ v) ∧ (v ≤ a ∨ v ≤ b ∨ v ≤ c ∨ v ≤ d) := by
  simp only [hull, mem_mk]
  omega

theorem mem_hull_of_between {a b c d p q : Int} (hv : v ∈ Set.uIcc p q) (hp : p ∈ Set.uIcc a b)
    (hq : q ∈ Set.uIcc c d) : v ∈ hull a b c d := by
  rw [Set.mem_uIcc] at hv hp hq
  rw [mem_hull]
  omega

theorem mul_between (ha : lo ≤ a ∧ a ≤ hi) (b : Int) : a * b ∈ Set.uIcc (lo * b) (hi * b) := by
  by_cases hb : 0 ≤ b
  · exact Set.mem_uIcc_of_le (Int.mul_le_mul_of_nonneg_right ha.1 hb)
      (Int.mul_le_mul_of_nonneg_right ha.2 hb)
  · have hneg : b ≤ 0 := by omega
    exact Set.mem_uIcc_of_ge (Int.mul_le_mul_of_nonpos_right ha.2 hneg)
      (Int.mul_le_mul_of_nonpos_right ha.1 hneg)

theorem mul_mem_hull (ha : a ∈ x) (hb : b ∈ y) :
    a * b ∈ hull (x.lo * y.lo) (x.lo * y.hi) (x.hi * y.lo) (x.hi * y.hi) := by
  have hright (c : Int) : c * b ∈ Set.uIcc (c * y.lo) (c * y.hi) := by
    simpa only [Int.mul_comm c] using mul_between hb c
  exact mem_hull_of_between (mul_between ha b) (hright x.lo) (hright x.hi)

/-- The squares of the ends in order, but from zero if there are values on both sides of it. -/
def squareEnds (x : Interval) : Interval :=
  ⟨if x.lo < 0 ∧ 0 < x.hi then 0 else min (x.lo * x.lo) (x.hi * x.hi),
    max (x.lo * x.lo) (x.hi * x.hi)⟩

theorem square_mem_squareEnds (ha : a ∈ x) : a * a ∈ squareEnds x := by
  have grows {b c : Int} (h : b.natAbs ≤ c.natAbs) : b * b ≤ c * c :=
    Int.natAbs_le_iff_mul_self_le.mp h
  rw [mem_iff] at ha
  simp only [squareEnds, mem_mk]
  constructor
  · split
    · exact mul_self_nonneg a
    · have hend : x.lo.natAbs ≤ a.natAbs ∨ x.hi.natAbs ≤ a.natAbs := by omega
      rcases hend with hend | hend
      · exact (min_le_left _ _).trans (grows hend)
      · exact (min_le_right _ _).trans (grows hend)
  · have hend : a.natAbs ≤ x.lo.natAbs ∨ a.natAbs ≤ x.hi.natAbs := by omega
    rcases hend with hend | hend
    · exact (grows hend).trans (le_max_left _ _)
    · exact (grows hend).trans (le_max_right _ _)

theorem squareEnds_attained (hx : x.lo ≤ x.hi) :
    (∃ a ∈ x, (squareEnds x).lo = a * a) ∧ ∃ a ∈ x, (squareEnds x).hi = a * a := by
  have hlo : x.lo ∈ x := ⟨Int.le_refl _, hx⟩
  have hhi : x.hi ∈ x := ⟨hx, Int.le_refl _⟩
  simp only [squareEnds]
  constructor
  · split
    · exact ⟨0, ⟨by omega, by omega⟩, rfl⟩
    · rcases min_choice (x.lo * x.lo) (x.hi * x.hi) with hmin | hmin
      · exact ⟨x.lo, hlo, hmin⟩
      · exact ⟨x.hi, hhi, hmin⟩
  · rcases max_choice (x.lo * x.lo) (x.hi * x.hi) with hmax | hmax
    · exact ⟨x.lo, hlo, hmax⟩
    · exact ⟨x.hi, hhi, hmax⟩

def clamped (t : ValueType) (r : Interval) : Interval := ⟨t.clamp r.lo, t.clamp r.hi⟩

theorem clamp_mem_clamped {r : Interval} (h : v ∈ r) : t.clamp v ∈ r.clamped t :=
  ⟨ValueType.clamp_le_clamp h.1, ValueType.clamp_le_clamp h.2⟩

variable [t.Lawful]

/-- Products are clamped one by one, which comes to clamping their bounds. -/
theorem mul_eq_clamped (x y : Interval) : mul t x y =
    (hull (x.lo * y.lo) (x.lo * y.hi) (x.hi * y.lo) (x.hi * y.hi)).clamped t := by
  simp only [mul, hull, clamped, ValueType.clampedMul_eq, ValueType.clamp_min,
    ValueType.clamp_max]

theorem square_eq_clamped (x : Interval) : square t x = (squareEnds x).clamped t := by
  simp only [square, squareEnds, clamped, ValueType.clampedMul_eq, apply_ite t.clamp,
    ValueType.clamp_zero, ValueType.clamp_min, ValueType.clamp_max]

omit [t.Lawful] in
theorem EndsIn.of_mem {r : Interval} (h : r.EndsIn t.Admissible) (hv : v ∈ r) : t.Admissible v :=
  ⟨Int.le_trans h.lo.1 hv.1, Int.le_trans hv.2 h.hi.2⟩

theorem EndsIn.admissible {r : Interval} (h : r.EndsIn t.Balanced) : r.EndsIn t.Admissible :=
  ⟨h.lo.admissible, h.hi.admissible⟩

theorem EndsIn.sturdy {r : Interval} (h : r.EndsIn t.Admissible) (hle : r.lo ≤ r.hi) :
    r.Sturdy t :=
  ⟨hle, h.imp fun _ hv => hv.negatable⟩

theorem EndsIn.sturdy_of_mem {r : Interval} (h : r.EndsIn t.Admissible) (hv : v ∈ r) :
    r.Sturdy t :=
  h.sturdy (Int.le_trans hv.1 hv.2)

theorem checkedAdd_eq (hx : x.Sturdy t) (hy : y.Sturdy t) :
    checkedAdd t x y = .ok (add t x y) := by
  refine checked_eq ?_
  simp only [add, ValueType.clampedAdd_clamps hx.ends.lo.1 hy.ends.lo.1,
    ValueType.clampedAdd_clamps hx.ends.hi.1 hy.ends.hi.1]
  exact ValueType.clamp_le_clamp (Int.add_le_add hx.le hy.le)

theorem checkedSub_eq (hx : x.Sturdy t) (hy : y.Sturdy t) :
    checkedSub t x y = .ok (sub t x y) := by
  have hneg : (neg t y).EndsIn t.Admissible :=
    ⟨ValueType.clamp_admissible _, ValueType.clamp_admissible _⟩
  rw [checkedSub, checkedNeg, checked_eq (neg_le hy)]
  exact checkedAdd_eq hx (hneg.sturdy (neg_le hy))

theorem checkedMul_eq (x y : Interval) : checkedMul t x y = .ok (mul t x y) := by
  refine checked_eq ?_
  rw [mul_eq_clamped]
  refine ValueType.clamp_le_clamp ?_
  simp only [hull]
  omega

theorem checkedSquare_eq (x : Interval) : checkedSquare t x = .ok (square t x) := by
  refine checked_eq ?_
  rw [square_eq_clamped]
  refine ValueType.clamp_le_clamp ?_
  have hsquare := mul_self_nonneg x.lo
  simp only [squareEnds]
  split <;> omega

theorem clamp_add_mem (hx : x.EndsIn t.Admissible) (hy : y.EndsIn t.Admissible) (ha : a ∈ x)
    (hb : b ∈ y) : t.clamp (a + b) ∈ add t x y := by
  simp only [add, mem_mk, ValueType.clampedAdd_eq hx.lo hy.lo, ValueType.clampedAdd_eq hx.hi hy.hi]
  rw [mem_iff] at ha hb
  exact ⟨ValueType.clamp_le_clamp (by omega), ValueType.clamp_le_clamp (by omega)⟩

theorem add_mem (hx : x.EndsIn t.Admissible) (hy : y.EndsIn t.Admissible) (ha : a ∈ x)
    (hb : b ∈ y) (hsum : t.Admissible (a + b)) : a + b ∈ add t x y := by
  rw [← ValueType.clamp_eq hsum]
  exact clamp_add_mem hx hy ha hb

omit [t.Lawful] in
theorem sub_eq (x y : Interval) :
    sub t x y = ⟨t.clampedSub x.lo y.hi, t.clampedSub x.hi y.lo⟩ := rfl

/-- The only difference of the universe that is lost is the one between the greatest value of `x`,
if that is negative, and the least value of the universe. -/
theorem mem_sub_iff (hx : x.EndsIn t.Admissible) (hy : y.EndsIn t.Admissible) (ha : a ∈ x)
    (hb : b ∈ y) (hdiff : t.Admissible (a - b)) :
    a - b ∈ sub t x y ↔ ¬(b = t.minValue ∧ a = x.hi ∧ a < 0) := by
  have hylo := hy.lo.1
  have hlo : t.clampedSub x.lo y.hi ≤ a - b := by
    have hle : t.clamp (x.lo - y.hi) ≤ t.clamp (a - b) :=
      ValueType.clamp_le_clamp (Int.sub_le_sub ha.1 hb.2)
    rw [ValueType.clamp_eq hdiff] at hle
    exact Int.le_trans (ValueType.clampedSub_le hx.lo hy.hi) hle
  rw [mem_iff] at ha hb
  rw [sub_eq, mem_mk, and_iff_right hlo]
  by_cases hshort : y.lo = t.minValue ∧ x.hi < 0
  · rw [hshort.1, ValueType.clampedSub_minValue hx.hi hshort.2]
    omega
  · have hle : t.clamp (a - b) ≤ t.clamp (x.hi - y.lo) :=
      ValueType.clamp_le_clamp (Int.sub_le_sub ha.2 hb.1)
    rw [ValueType.clamp_eq hdiff, ← (ValueType.clampedSub_eq_iff hx.hi hy.lo).mpr hshort] at hle
    have hnot : ¬(b = t.minValue ∧ a = x.hi ∧ a < 0) := by omega
    exact iff_of_true hle hnot

theorem sub_mem (hx : x.EndsIn t.Admissible) (hy : y.EndsIn t.Balanced) (ha : a ∈ x)
    (hb : b ∈ y) (hdiff : t.Admissible (a - b)) : a - b ∈ sub t x y := by
  have hmin := ValueType.Lawful.min_eq (t := t)
  have hylo := hy.lo.1
  have hblo := hb.1
  exact (mem_sub_iff hx hy.admissible ha hb hdiff).mpr (by omega)

/-- Subtraction is exact up to the clamp, unless the least value is subtracted from a negative one.
Then the clamped difference of the values is one too small, and the interval of differences lacks
the greatest one; it lacks no other difference of the universe. -/
theorem differences_exact_iff :
    (∀ x y : Interval, x.EndsIn t.Admissible → y.EndsIn t.Admissible → ∀ a ∈ x, ∀ b ∈ y,
      t.Admissible (a - b) → (a - b ∈ sub t x y ↔ ¬(b = t.minValue ∧ a = x.hi ∧ a < 0))) ∧
      (∀ x y : Interval, x.EndsIn t.Admissible → y.EndsIn t.Admissible → x.lo ≤ x.hi →
        y.lo ≤ y.hi → checkedSub t x y = .ok (sub t x y)) ∧
      ∀ a b, t.Admissible a → t.Admissible b →
        (t.clampedSub a b = t.clamp (a - b) ↔ ¬(b = t.minValue ∧ a < 0)) ∧
          (b = t.minValue → a < 0 → t.clampedSub a b = t.clamp (a - b) - 1) := by
  refine ⟨fun x y hx hy a ha b hb => mem_sub_iff hx hy ha hb,
    fun x y hx hy hxle hyle => checkedSub_eq (hx.sturdy hxle) (hy.sturdy hyle),
    fun a b ha hb => ⟨ValueType.clampedSub_eq_iff ha hb, ?_⟩⟩
  rintro rfl hneg
  have hmin := ValueType.Lawful.min_eq (t := t)
  have hlo := ha.1
  rw [ValueType.clampedSub_minValue ha hneg, ValueType.clamp_eq ⟨by omega, by omega⟩]

/-- From `-1` the least value cannot be subtracted, neither as a value nor as an interval. -/
theorem differences_not_exact :
    (¬∀ x y : Interval, x.EndsIn ValueType.int32.Admissible →
      y.EndsIn ValueType.int32.Admissible → ∀ a ∈ x, ∀ b ∈ y,
        ValueType.int32.Admissible (a - b) → a - b ∈ sub .int32 x y) ∧
      ¬∀ a b, ValueType.int32.Admissible a → ValueType.int32.Admissible b →
        ValueType.int32.clampedSub a b = ValueType.int32.clamp (a - b) := by
  constructor
  · intro h
    have hmem := h (singleton (-1)) (singleton (-536870910)) ⟨by decide, by decide⟩
      ⟨by decide, by decide⟩ (-1) ⟨by decide, by decide⟩ (-536870910) ⟨by decide, by decide⟩
      (by decide)
    exact absurd hmem.2 (by decide)
  · intro h
    exact absurd (h (-1) (-536870910) (by decide) (by decide)) (by decide)

/-- The greatest difference of a negative interval and one that starts at the least value. -/
theorem differences_exact_iff_least :
    let x : Interval := ⟨-3, -1⟩
    let y : Interval := ⟨-536870910, 4⟩
    x.EndsIn ValueType.int32.Admissible ∧ y.EndsIn ValueType.int32.Admissible ∧
      -1 ∈ x ∧ -536870910 ∈ y ∧ ValueType.int32.Admissible (-1 - (-536870910)) ∧
      checkedSub .int32 x y = .ok (sub .int32 x y) ∧
      -1 - (-536870910) ∉ sub .int32 x y ∧ -2 - (-536870910) ∈ sub .int32 x y ∧
      ValueType.int32.clampedSub (-1) (-536870910) =
        ValueType.int32.clamp (-1 - (-536870910)) - 1 := by
  intro x y
  have hx : x.EndsIn ValueType.int32.Admissible := ⟨by decide, by decide⟩
  have hy : y.EndsIn ValueType.int32.Admissible := ⟨by decide, by decide⟩
  have hmem : (-1 : Int) ∈ x := ⟨by decide, by decide⟩
  have hmem' : (-2 : Int) ∈ x := ⟨by decide, by decide⟩
  have hleast : (-536870910 : Int) ∈ y := ⟨by decide, by decide⟩
  obtain ⟨hsub, hchecked, hclamped⟩ := differences_exact_iff (t := .int32)
  refine ⟨hx, hy, hmem, hleast, by decide, hchecked x y hx hy (by decide) (by decide), ?_, ?_, ?_⟩
  · rw [hsub x y hx hy _ hmem _ hleast (by decide)]
    decide
  · exact (hsub x y hx hy _ hmem' _ hleast (by decide)).mpr (by decide)
  · exact (hclamped _ _ (by decide) (by decide)).2 rfl (by decide)

theorem clamp_mul_mem (ha : a ∈ x) (hb : b ∈ y) : t.clamp (a * b) ∈ mul t x y := by
  rw [mul_eq_clamped]
  exact clamp_mem_clamped (mul_mem_hull ha hb)

theorem mul_mem (ha : a ∈ x) (hb : b ∈ y) (hprod : t.Admissible (a * b)) : a * b ∈ mul t x y := by
  rw [← ValueType.clamp_eq hprod]
  exact clamp_mul_mem ha hb

theorem clamp_square_mem (ha : a ∈ x) : t.clamp (a * a) ∈ square t x := by
  rw [square_eq_clamped]
  exact clamp_mem_clamped (square_mem_squareEnds ha)

theorem square_attained (hx : x.lo ≤ x.hi) : (∃ a ∈ x, (square t x).lo = t.clamp (a * a)) ∧
    ∃ a ∈ x, (square t x).hi = t.clamp (a * a) := by
  obtain ⟨⟨a, ha, hlo⟩, b, hb, hhi⟩ := squareEnds_attained hx
  rw [square_eq_clamped]
  exact ⟨⟨a, ha, congrArg t.clamp hlo⟩, b, hb, congrArg t.clamp hhi⟩

end FiniteDomains.Interval
