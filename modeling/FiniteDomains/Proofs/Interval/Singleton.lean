import FiniteDomains.Proofs.Interval.Monotone

/-! Arithmetic on single values. A sum is clamped, and in a difference the subtrahend is clamped as
well, so one of them may give a value for which the sum is wrong; all three together do not. A
quotient is exact, and it alone decides whether a product is right. -/
namespace FiniteDomains.Interval
variable {t : ValueType} {a b c : Int}

theorem endsHull_singleton (f : Int → Int → Int) :
    endsHull f (singleton a) (singleton b) = singleton (f a b) := by
  simp [endsHull, hull, singleton]

theorem mul_eq_of_below_of_above (hbelow : Below a c b) (habove : Above a c b) : a * b = c := by
  rw [Below] at hbelow
  rw [Above] at habove
  omega

variable [t.Lawful]

theorem sturdy_singleton (ha : t.Admissible a) : (singleton a).Sturdy t :=
  EndsIn.sturdy ⟨ha, ha⟩ (Int.le_refl a)

theorem add_singleton (ha : t.Admissible a) (hb : t.Admissible b) :
    add t (singleton a) (singleton b) = singleton (t.clamp (a + b)) := by
  simp only [add, singleton, ValueType.clampedAdd_eq ha hb]

theorem sub_singleton (hc : t.Admissible c) (hb : t.Admissible b) :
    sub t (singleton c) (singleton b) = singleton (t.clamp (c + t.clamp (-b))) := by
  rw [← ValueType.clampedSub_clamps hc hb]
  rfl

/-- A value that is the clamped sum of two others, each of which is also the clamped difference
that it should be, is their sum. -/
theorem sum_exact (ha : t.Admissible a) (hb : t.Admissible b) (hc : t.Admissible c)
    (hsum : c ∈ add t (singleton a) (singleton b)) (hleft : a ∈ sub t (singleton c) (singleton b))
    (hright : b ∈ sub t (singleton c) (singleton a)) : a + b = c := by
  rw [add_singleton ha hb, mem_singleton] at hsum
  rw [sub_singleton hc hb, mem_singleton] at hleft
  rw [sub_singleton hc ha, mem_singleton] at hright
  have hmax := ValueType.Lawful.one_le_max (t := t)
  have hmin := ValueType.Lawful.min_eq (t := t)
  obtain ⟨halo, hahi⟩ := ha
  obtain ⟨hblo, hbhi⟩ := hb
  -- where the sum has been clamped, one of the differences is not the value it should be
  simp only [ValueType.clamp] at hsum hleft hright
  omega

/-- The clamped sum and one of the differences are not enough. -/
example : add .int32 (singleton (-1)) (singleton (-536870910)) = singleton (-536870910) ∧
    sub .int32 (singleton (-536870910)) (singleton (-536870910)) = singleton (-1) := by decide

theorem quotient_exact (hc : t.Admissible c) (hb : b ≠ 0) {r : Interval}
    (hdiv : div t .factor (singleton c) (singleton b) = .ok r) (ha : a ∈ r) : a * b = c := by
  -- A quotient of two values that is found is exact.
  rw [div_oneSided (Int.lt_or_gt_of_ne hb).symm] at hdiv
  simp only [signedQuotients, endsHull_singleton] at hdiv
  split at hdiv
  · cases hdiv
  · cases hdiv
    exact mul_eq_of_below_of_above ((le_floorQuotient_iff hc hb).mp ha.2)
      ((ceilQuotient_le_iff hc hb).mp ha.1)

theorem product_exact (hc : t.Admissible c) {r : Interval}
    (hdiv : div t .factor (singleton c) (singleton b) = .ok r) (ha : a ∈ r) : a * b = c := by
  by_cases hb : b = 0
  · subst hb
    by_cases hc₀ : c = 0
    · rw [hc₀, Int.mul_zero]
    · rw [div_byZero fun hmem => hc₀ (mem_singleton.mp hmem).symm] at hdiv
      cases hdiv
  · exact quotient_exact hc hb hdiv ha

end FiniteDomains.Interval
