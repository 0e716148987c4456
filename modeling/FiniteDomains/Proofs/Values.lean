import FiniteDomains.ValueType
import Mathlib.Tactic.Linarith

/-! What the value types have in common: the values that fit have no gaps, and there is room for
sums and differences of admissible values. -/
namespace FiniteDomains.ValueType

/-- The value types with a universe that is closed under negation up to its least value. -/
class Lawful (t : ValueType) : Prop where
  one_le_max : 1 ≤ t.maxValue
  min_eq : t.minValue = -(t.maxValue + 1)
  fits_near : ∀ v, -(2 * t.maxValue + 3) ≤ v → v ≤ 2 * t.maxValue + 3 → t.fits v = true
  fits_between : ∀ a b v, t.fits a = true → t.fits b = true → a ≤ v → v ≤ b → t.fits v = true
  universe_le : 2 * t.maxValue + 2 ≤ countLimit

instance (overflow : Int → Int) : Lawful (overflowing32 overflow) where
  one_le_max := by simp [overflowing32]
  min_eq := by simp [overflowing32]
  fits_near := by simp only [overflowing32, decide_eq_true_eq]; omega
  fits_between := by simp only [overflowing32, decide_eq_true_eq]; omega
  universe_le := by simp [overflowing32, countLimit]

instance (overflow : Int → Int) : Lawful (overflowing64 overflow) where
  one_le_max := by simp [overflowing64]
  min_eq := by simp [overflowing64]
  fits_near := by simp only [overflowing64, decide_eq_true_eq]; omega
  fits_between := by simp only [overflowing64, decide_eq_true_eq]; omega
  universe_le := by simp [overflowing64, countLimit]

instance : Lawful int32 := inferInstanceAs (Lawful (overflowing32 _))

instance : Lawful int64 := inferInstanceAs (Lawful (overflowing64 _))

instance : Lawful integer where
  one_le_max := by decide
  min_eq := by decide
  fits_near := by simp [integer]
  fits_between := by simp [integer]
  universe_le := by decide

variable {t : ValueType} {x y v : Int}

def Admissible (t : ValueType) (v : Int) : Prop := t.minValue ≤ v ∧ v ≤ t.maxValue

instance (t : ValueType) (v : Int) : Decidable (t.Admissible v) :=
  inferInstanceAs (Decidable (_ ∧ _))

/-- A value of the part of the universe that is closed under negation. -/
def Balanced (t : ValueType) (v : Int) : Prop := -t.maxValue ≤ v ∧ v ≤ t.maxValue

/-- A value with a value on either side, so that the steps to them do not overflow. -/
def Inner (t : ValueType) (v : Int) : Prop := t.fits (v - 1) = true ∧ t.fits (v + 1) = true

instance (t : ValueType) (v : Int) : Decidable (t.Inner v) := inferInstanceAs (Decidable (_ ∧ _))

/-- A value that fits together with its negation. -/
def Negatable (t : ValueType) (v : Int) : Prop := t.fits v = true ∧ t.fits (-v) = true

instance (t : ValueType) (v : Int) : Decidable (t.Negatable v) :=
  inferInstanceAs (Decidable (_ ∧ _))

theorem admissible_int32 : int32.Admissible v ↔ -536870910 ≤ v ∧ v ≤ 536870909 := Iff.rfl

theorem balanced_int32 : int32.Balanced v ↔ -536870909 ≤ v ∧ v ≤ 536870909 := Iff.rfl

theorem unchecked_eq (h : t.fits v = true) : t.unchecked v = v := by
  rw [unchecked, if_pos h]

theorem succ_eq (h : t.fits (v + 1) = true) : t.succ v = v + 1 := unchecked_eq h

theorem pred_eq (h : t.fits (v - 1) = true) : t.pred v = v - 1 := unchecked_eq h

/-! ### Ascending values -/

theorem mem_ascending {lo : Int} {steps : Nat}
    (hfit : ∀ w, lo < w → w ≤ lo + steps → t.fits w = true) :
    v ∈ t.ascending lo steps ↔ lo ≤ v ∧ v ≤ lo + steps := by
  induction steps generalizing lo with
  | zero =>
    simp only [ascending, List.mem_singleton]
    omega
  | succ steps ih =>
    have hsucc : t.succ lo = lo + 1 := succ_eq (hfit _ (by omega) (by omega))
    rw [ascending, hsucc, List.mem_cons, ih fun w hlo hhi => hfit w (by omega) (by omega)]
    omega

theorem ascending_pairwise {lo : Int} {steps : Nat}
    (hfit : ∀ w, lo < w → w ≤ lo + steps → t.fits w = true) :
    (t.ascending lo steps).Pairwise (· < ·) := by
  induction steps generalizing lo with
  | zero => simp [ascending]
  | succ steps ih =>
    have hsucc : t.succ lo = lo + 1 := succ_eq (hfit _ (by omega) (by omega))
    have hrest (w : Int) (hlo : lo + 1 < w) (hhi : w ≤ lo + 1 + steps) : t.fits w = true :=
      hfit w (by omega) (by omega)
    rw [ascending, hsucc]
    refine List.pairwise_cons.mpr ⟨fun w hw => ?_, ih hrest⟩
    have hlo := ((mem_ascending hrest).mp hw).1
    omega

theorem length_ascending (lo : Int) (steps : Nat) : (t.ascending lo steps).length = steps + 1 := by
  induction steps generalizing lo with
  | zero => rfl
  | succ steps ih => rw [ascending, List.length_cons, ih]

theorem getElem?_ascending {lo : Int} {steps i : Nat}
    (hfit : ∀ w, lo < w → w ≤ lo + steps → t.fits w = true) (hi : i ≤ steps) :
    (t.ascending lo steps)[i]? = some (lo + i) := by
  induction steps generalizing lo i with
  | zero =>
    obtain rfl : i = 0 := by omega
    simp [ascending]
  | succ steps ih =>
    cases i with
    | zero => simp [ascending]
    | succ i =>
      have hsucc : t.succ lo = lo + 1 := succ_eq (hfit _ (by omega) (by omega))
      rw [ascending, hsucc, List.getElem?_cons_succ,
        ih (fun w hlo hhi => hfit w (by omega) (by omega)) (by omega)]
      congr 1
      omega

theorem take_ascending (lo : Int) (steps limit : Nat) :
    (t.ascending lo steps).take (limit + 1) = t.ascending lo (min limit steps) := by
  induction steps generalizing lo limit with
  | zero => simp [ascending]
  | succ steps ih =>
    cases limit with
    | zero => simp [ascending]
    | succ limit =>
      rw [ascending, List.take_succ_cons, ih, Nat.succ_min_succ]
      rfl

/-! ### Clamping -/

theorem clamp_eq (h : t.Admissible v) : t.clamp v = v := by
  obtain ⟨hlo, hhi⟩ := h
  simp only [clamp]
  omega

theorem clamp_le_clamp (h : x ≤ y) : t.clamp x ≤ t.clamp y := by
  simp only [clamp]
  omega

theorem clamp_min (x y : Int) : t.clamp (min x y) = min (t.clamp x) (t.clamp y) := by
  simp only [clamp]
  omega

theorem clamp_max (x y : Int) : t.clamp (max x y) = max (t.clamp x) (t.clamp y) := by
  simp only [clamp]
  omega

theorem le_clamp (h : x ≤ t.maxValue) : x ≤ t.clamp x := by
  simp only [clamp]
  omega

theorem le_of_clamp_le (h : t.clamp x ≤ y) (hy : y < t.maxValue) : x ≤ y := by
  simp only [clamp] at h
  omega

theorem clampedMul_clamps (hmin : t.minValue < 0) (hmax : 0 < t.maxValue)
    (hfit : ∀ v, t.Admissible v → t.fits v = true) (x y : Int) :
    t.clampedMul x y = t.clamp (x * y) := by
  -- A product that does not fit lies beyond the end of its sign, if the universe reaches over zero
  -- and its values fit.
  simp only [clampedMul, mul?]
  by_cases hfits : t.fits (x * y) = true
  · rw [if_pos hfits]
  rw [if_neg hfits]
  have hout : x * y < t.minValue ∨ t.maxValue < x * y := by
    by_contra hin
    exact hfits (hfit _ ⟨by omega, by omega⟩)
  have hlow (hneg : x * y ≤ 0) : t.minValue = t.clamp (x * y) := by
    simp only [clamp]
    omega
  have hhigh (hpos : 0 ≤ x * y) : t.maxValue = t.clamp (x * y) := by
    simp only [clamp]
    omega
  by_cases hx : x < 0 <;> by_cases hy : y < 0
  · simpa [hx, hy] using hhigh (Int.le_of_lt (Int.mul_pos_of_neg_of_neg hx hy))
  · simpa [hx, hy] using hlow (Int.mul_nonpos_of_nonpos_of_nonneg (by omega) (by omega))
  · simpa [hx, hy] using hlow (Int.mul_nonpos_of_nonneg_of_nonpos (by omega) (by omega))
  · simpa [hx, hy] using hhigh (Int.mul_nonneg (by omega) (by omega))

section
variable [Lawful t]

theorem Admissible.fits (h : t.Admissible v) : t.fits v = true := by
  have hmax := Lawful.one_le_max (t := t)
  have hmin := Lawful.min_eq (t := t)
  obtain ⟨hlo, hhi⟩ := h
  exact Lawful.fits_near v (by omega) (by omega)

theorem Balanced.admissible (h : t.Balanced v) : t.Admissible v := by
  have hmin := Lawful.min_eq (t := t)
  obtain ⟨hlo, hhi⟩ := h
  exact ⟨by omega, hhi⟩

theorem Admissible.balanced (h : t.Admissible v) (hv : 0 ≤ v) : t.Balanced v := by
  have hmax := Lawful.one_le_max (t := t)
  exact ⟨by omega, h.2⟩

theorem Admissible.inner (h : t.Admissible v) : t.Inner v := by
  have hmax := Lawful.one_le_max (t := t)
  have hmin := Lawful.min_eq (t := t)
  obtain ⟨hlo, hhi⟩ := h
  exact ⟨Lawful.fits_near _ (by omega) (by omega), Lawful.fits_near _ (by omega) (by omega)⟩

theorem Admissible.negatable (h : t.Admissible v) : t.Negatable v := by
  have hmax := Lawful.one_le_max (t := t)
  have hmin := Lawful.min_eq (t := t)
  obtain ⟨hlo, hhi⟩ := h
  exact ⟨Lawful.fits_near _ (by omega) (by omega), Lawful.fits_near _ (by omega) (by omega)⟩

theorem Admissible.fits_add (hx : t.Admissible x) (hy : t.Admissible y) :
    t.fits (x + y) = true := by
  have hmin := Lawful.min_eq (t := t)
  obtain ⟨hxlo, hxhi⟩ := hx
  obtain ⟨hylo, hyhi⟩ := hy
  exact Lawful.fits_near _ (by omega) (by omega)

theorem Inner.fits (h : t.Inner v) : t.fits v = true :=
  Lawful.fits_between _ _ v h.1 h.2 (by omega) (by omega)

theorem clamp_admissible (v : Int) : t.Admissible (t.clamp v) := by
  have hmax := Lawful.one_le_max (t := t)
  have hmin := Lawful.min_eq (t := t)
  simp only [Admissible, clamp]
  omega

theorem clamp_zero : t.clamp 0 = 0 := by
  have hmax := Lawful.one_le_max (t := t)
  have hmin := Lawful.min_eq (t := t)
  exact clamp_eq ⟨by omega, by omega⟩

theorem clamp_le_self (h : 0 ≤ v) : t.clamp v ≤ v := by
  have hmax := Lawful.one_le_max (t := t)
  have hmin := Lawful.min_eq (t := t)
  simp only [clamp]
  omega

/-- A sum that does not fit lies beyond the end of the sign of either summand. -/
theorem clampedAdd_clamps (hx : t.fits x = true) (hy : t.fits y = true) :
    t.clampedAdd x y = t.clamp (x + y) := by
  have hmax := Lawful.one_le_max (t := t)
  have hmin := Lawful.min_eq (t := t)
  simp only [clampedAdd, add?]
  by_cases hfits : t.fits (x + y) = true
  · rw [if_pos hfits]
  rw [if_neg hfits]
  have hout : x + y < t.minValue ∨ t.maxValue < x + y := by
    by_contra hin
    exact hfits (Admissible.fits ⟨by omega, by omega⟩)
  -- the summands have one sign, or their sum would be between them
  have hsign : x < 0 ↔ y < 0 := by
    by_contra hdiffer
    have hbetween : x ≤ x + y ∧ x + y ≤ y ∨ y ≤ x + y ∧ x + y ≤ x := by omega
    rcases hbetween with ⟨hlo, hhi⟩ | ⟨hlo, hhi⟩
    · exact hfits (Lawful.fits_between _ _ _ hx hy hlo hhi)
    · exact hfits (Lawful.fits_between _ _ _ hy hx hlo hhi)
  simp only [clamp]
  split <;> omega

theorem clampedAdd_eq (hx : t.Admissible x) (hy : t.Admissible y) :
    t.clampedAdd x y = t.clamp (x + y) := by
  simp only [clampedAdd, add?, if_pos (hx.fits_add hy)]

theorem clampedAdd_mono {x' y' : Int} (hx : t.Admissible x) (hx' : t.Admissible x')
    (hy : t.Admissible y) (hy' : t.Admissible y') (hxx' : x ≤ x') (hyy' : y ≤ y') :
    t.clampedAdd x y ≤ t.clampedAdd x' y' := by
  rw [clampedAdd_eq hx hy, clampedAdd_eq hx' hy']
  exact clamp_le_clamp (Int.add_le_add hxx' hyy')

theorem foldl_clampedAdd {summands : List Int} (h : ∀ v ∈ summands, 0 ≤ v) :
    (summands.map t.clamp).foldl t.clampedAdd 0 = t.clamp summands.sum := by
  have hmin := Lawful.min_eq (t := t)
  have hmax := Lawful.one_le_max (t := t)
  have hfrom {total : Int} (htotal : 0 ≤ total) :
      (summands.map t.clamp).foldl t.clampedAdd (t.clamp total) =
        t.clamp (total + summands.sum) := by
    induction summands generalizing total with
    | nil => simp
    | cons v summands ih =>
      obtain ⟨hv, hrest⟩ := List.forall_mem_cons.mp h
      have hstep : t.clampedAdd (t.clamp total) (t.clamp v) = t.clamp (total + v) := by
        rw [clampedAdd_eq (clamp_admissible _) (clamp_admissible _)]
        simp only [clamp]
        omega
      rw [List.map_cons, List.foldl_cons, hstep, ih hrest (by omega), List.sum_cons, Int.add_assoc]
  have hall := hfrom (Int.le_refl 0)
  rwa [clamp_zero, Int.zero_add] at hall

theorem clampedSub_clamps (hx : t.Admissible x) (hy : t.Admissible y) :
    t.clampedSub x y = t.clamp (x + t.clamp (-y)) := by
  have hmin := Lawful.min_eq (t := t)
  obtain ⟨hlo, hhi⟩ := hy
  have hfits : t.fits (-y) = true := Lawful.fits_near _ (by omega) (by omega)
  rw [clampedSub, unchecked_eq hfits, clampedAdd_eq hx (clamp_admissible _)]

theorem clampedSub_mono {x' y' : Int} (hx : t.Admissible x) (hx' : t.Admissible x')
    (hy : t.Admissible y) (hy' : t.Admissible y') (hxx' : x ≤ x') (hyy' : y' ≤ y) :
    t.clampedSub x y ≤ t.clampedSub x' y' := by
  rw [clampedSub_clamps hx hy, clampedSub_clamps hx' hy']
  exact clamp_le_clamp (Int.add_le_add hxx' (clamp_le_clamp (Int.neg_le_neg hyy')))

theorem clampedSub_le (hx : t.Admissible x) (hy : t.Admissible y) :
    t.clampedSub x y ≤ t.clamp (x - y) := by
  have hmin := Lawful.min_eq (t := t)
  obtain ⟨hlo, hhi⟩ := hy
  have hneg : t.clamp (-y) ≤ -y := by
    simp only [clamp]
    omega
  rw [clampedSub_clamps hx ⟨hlo, hhi⟩]
  exact clamp_le_clamp (by omega)

theorem clampedSub_minValue (hx : t.Admissible x) (hneg : x < 0) :
    t.clampedSub x t.minValue = x - t.minValue - 1 := by
  have hmax := Lawful.one_le_max (t := t)
  have hmin := Lawful.min_eq (t := t)
  have hclamp : t.clamp (-t.minValue) = t.maxValue := by
    simp only [clamp]
    omega
  obtain ⟨hlo, hhi⟩ := hx
  rw [clampedSub_clamps ⟨hlo, hhi⟩ ⟨Int.le_refl _, by omega⟩, hclamp,
    clamp_eq ⟨by omega, by omega⟩]
  omega

/-- A difference is clamped as a whole, unless the least value is taken from a negative one. -/
theorem clampedSub_eq_iff (hx : t.Admissible x) (hy : t.Admissible y) :
    t.clampedSub x y = t.clamp (x - y) ↔ ¬(y = t.minValue ∧ x < 0) := by
  have hmin := Lawful.min_eq (t := t)
  constructor
  · rintro heq ⟨rfl, hneg⟩
    rw [clampedSub_minValue hx hneg, clamp_eq ⟨by have := hx.1; omega, by omega⟩] at heq
    omega
  · intro hnot
    rw [clampedSub_clamps hx hy]
    obtain ⟨hxlo, hxhi⟩ := hx
    obtain ⟨hylo, hyhi⟩ := hy
    simp only [clamp]
    omega

theorem clampedSub_eq (hx : t.Admissible x) (hy : t.Balanced y) :
    t.clampedSub x y = t.clamp (x - y) := by
  have hmin := Lawful.min_eq (t := t)
  have hlo := hy.1
  exact (clampedSub_eq_iff hx hy.admissible).mpr (by omega)

theorem clampedMul_eq (x y : Int) : t.clampedMul x y = t.clamp (x * y) := by
  have hmax := Lawful.one_le_max (t := t)
  have hmin := Lawful.min_eq (t := t)
  exact clampedMul_clamps (by omega) (by omega) (fun v hv => hv.fits) x y

theorem clamp_mul_le (hx : 0 ≤ x) (y : Int) : t.clamp (x * y) ≤ t.clamp (x * t.clamp y) := by
  have hmax := Lawful.one_le_max (t := t)
  have hmin := Lawful.min_eq (t := t)
  by_cases hy : y ≤ t.maxValue
  · refine clamp_le_clamp (Int.mul_le_mul_of_nonneg_left ?_ hx)
    simp only [clamp]
    omega
  · have hclamp : t.clamp y = t.maxValue := by
      simp only [clamp]
      omega
    by_cases hzero : x = 0
    · rw [hzero, Int.zero_mul, Int.zero_mul]
    · have hgreatest : t.maxValue ≤ x * t.maxValue :=
        le_mul_of_one_le_left (by omega) (by omega)
      rw [hclamp]
      simp only [clamp]
      omega

theorem count_eq (hx : t.Admissible x) (hy : t.Admissible y) : t.count x y = (y + 1 - x).toNat := by
  have hmin := Lawful.min_eq (t := t)
  have hlimit := Lawful.universe_le (t := t)
  obtain ⟨hxlo, hxhi⟩ := hx
  obtain ⟨hylo, hyhi⟩ := hy
  simp only [count]
  split
  · omega
  · have hdiff : t.fits (y - x) = true := Lawful.fits_near _ (by omega) (by omega)
    have hone : t.fits (y - x + 1) = true := Lawful.fits_near _ (by omega) (by omega)
    rw [unchecked_eq hdiff, unchecked_eq hone, if_pos ⟨by omega, by omega⟩]
    omega

/-- Counts are exact up to the limit at which they stop. -/
theorem count_eq_min (hle : x ≤ y) (hfits : t.fits (y - x + 1) = true) :
    t.count x y = min countLimit (y + 1 - x).toNat := by
  have hmax := Lawful.one_le_max (t := t)
  have hdiff : t.fits (y - x) = true :=
    Lawful.fits_between 0 (y - x + 1) _ (Lawful.fits_near 0 (by omega) (by omega)) hfits (by omega)
      (by omega)
  simp only [count, unchecked_eq hdiff, unchecked_eq hfits]
  split_ifs <;> omega

theorem count_self (v : Int) : t.count v v = 1 := by
  have hmax := Lawful.one_le_max (t := t)
  have hzero : t.unchecked 0 = 0 := unchecked_eq (Lawful.fits_near _ (by omega) (by omega))
  have hone : t.unchecked 1 = 1 := unchecked_eq (Lawful.fits_near _ (by omega) (by omega))
  simp [count, hzero, hone, countLimit]

end

end FiniteDomains.ValueType
