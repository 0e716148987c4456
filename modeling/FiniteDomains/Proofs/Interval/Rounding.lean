import FiniteDomains.Proofs.Interval.Monotone

/-! The two kinds of quotients side by side. A quotient rounded toward zero lies between the ones
rounded down and up, so the bounds of other factors, which are rounded inwards, lie within those of
truncated quotients. A division by zero is one for either kind. -/
namespace FiniteDomains.Interval
variable {t : ValueType} {n d r : Interval} {f g : Int → Int → Int} {P : Int → Prop} {a : Int}

theorem fdiv_le_tdiv (a b : Int) : a.fdiv b ≤ a.tdiv b := by
  rw [Int.tdiv_eq_fdiv]
  apply Int.le_add_of_nonneg_right
  split_ifs with _ _ _ hb
  · exact Int.le_refl 0
  · exact Int.le_refl 0
  · decide
  · exact Int.sign_nonneg_iff.mpr hb
  · rw [Int.sign_eq_neg_one_of_neg (Int.not_le.mp hb)]
    decide

theorem endsHull_mono (hn : n.EndsIn P) (h : ∀ a, P a → ∀ e, f a e ≤ g a e) :
    (endsHull f n d).lo ≤ (endsHull g n d).lo ∧ (endsHull f n d).hi ≤ (endsHull g n d).hi := by
  have hlolo := h n.lo hn.lo d.lo
  have hlohi := h n.lo hn.lo d.hi
  have hhilo := h n.hi hn.hi d.lo
  have hhihi := h n.hi hn.hi d.hi
  simp only [endsHull, hull]
  omega

theorem whole_inside [t.Lawful] : (whole t).Inside (whole t) := by
  have hmax := ValueType.Lawful.one_le_max (t := t)
  have hmin := ValueType.Lawful.min_eq (t := t)
  exact ⟨by simp only [whole]; omega, Int.le_refl _, Int.le_refl _⟩

theorem div_truncated_ne_noQuotient : div t .truncated n d ≠ .error .noQuotient := by
  simp only [div, signedQuotients]
  split_ifs <;> simp

variable [t.Lawful]

theorem floorQuotient_le_truncatedQuotient (ha : t.Admissible a) (b : Int) :
    floorQuotient t a b ≤ truncatedQuotient t a b := by
  rw [floorQuotient_eq (magnitude_le ha), truncatedQuotient_eq (magnitude_le ha)]
  exact fdiv_le_tdiv a b

theorem truncatedQuotient_le_ceilQuotient (ha : t.Admissible a) (b : Int) :
    truncatedQuotient t a b ≤ ceilQuotient t a b := by
  rw [truncatedQuotient_eq (magnitude_le ha), ceilQuotient_eq (magnitude_le ha)]
  have hneg := fdiv_le_tdiv (-a) b
  rw [Int.neg_tdiv] at hneg
  omega

theorem signedQuotients_factor_inside (hn : n.EndsIn t.Admissible)
    (h : signedQuotients t .factor n d = .ok r) :
    ∃ r', signedQuotients t .truncated n d = .ok r' ∧ r.Inside r' := by
  have hlo := (endsHull_mono (d := d) hn fun _ => truncatedQuotient_le_ceilQuotient).1
  have hhi := (endsHull_mono (d := d) hn fun _ => floorQuotient_le_truncatedQuotient).2
  refine ⟨_, rfl, ?_⟩
  simp only [signedQuotients] at h
  split at h
  · cases h
  · next hle =>
    cases h
    exact ⟨Int.not_lt.mp hle, hlo, hhi⟩

theorem div_factor_inside_truncated (hn : n.EndsIn t.Admissible) (hd : d.lo ≤ d.hi)
    (h : div t .factor n d = .ok r) : ∃ r', div t .truncated n d = .ok r' ∧ r.Inside r' := by
  cases div_cases hn hd with
  | whole _ _ hdiv =>
    rw [hdiv] at h ⊢
    cases h
    exact ⟨_, rfl, whole_inside⟩
  | byZero _ _ hdiv =>
    rw [hdiv] at h
    cases h
  | across _ _ _ hdiv =>
    rw [hdiv] at h ⊢
    cases h
    exact ⟨_, rfl, by simp only; omega, Int.le_refl _, Int.le_refl _⟩
  | oneSided _ _ _ hdiv =>
    rw [hdiv] at h ⊢
    exact signedQuotients_factor_inside hn h

/-- Both kinds of division find a division by zero in the same places, and truncated quotients are
found in all others. Where there are other factors, their bounds lie within those of the truncated
quotients. -/
theorem factors_within_truncated (hn : n.EndsIn t.Admissible) (hd : d.lo ≤ d.hi) :
    (div t .factor n d = .error .byZero ↔ div t .truncated n d = .error .byZero) ∧
      (div t .truncated n d ≠ .error .byZero → ∃ r, div t .truncated n d = .ok r) ∧
      (∀ r, div t .factor n d = .ok r → ∃ r', div t .truncated n d = .ok r' ∧ r.Inside r') ∧
      (n.lo ≤ n.hi → ∀ kind, checkedDiv t kind n d = .ok (div t kind n d)) := by
  refine ⟨?_, fun hne => ?_, fun r => div_factor_inside_truncated hn hd,
    fun hle _ => checkedDiv_eq (hn.sturdy hle) hd⟩
  · rw [div_eq_byZero_iff hn hd, div_eq_byZero_iff hn hd]
  · cases hdiv : div t .truncated n d with
    | ok r => exact ⟨r, rfl⟩
    | error cause =>
      cases cause with
      | byZero => exact absurd hdiv hne
      | noQuotient => exact absurd hdiv div_truncated_ne_noQuotient

/-- Corner quotients of both signs; other factors are missing where truncated quotients are not. -/
theorem factors_within_truncated_mixed :
    let n : Interval := ⟨-9, 7⟩
    let d : Interval := ⟨2, 5⟩
    n.EndsIn ValueType.int32.Admissible ∧ d.lo ≤ d.hi ∧ div .int32 .factor n d = .ok ⟨-4, 3⟩ ∧
      (∃ r', div .int32 .truncated n d = .ok r' ∧ Inside ⟨-4, 3⟩ r') ∧
      div .int32 .factor (singleton 5) (singleton 2) = .error .noQuotient ∧
      (∃ r, div .int32 .truncated (singleton 5) (singleton 2) = .ok r) ∧
      div .int32 .factor (singleton 5) (singleton 0) = .error .byZero ∧
      div .int32 .truncated (singleton 5) (singleton 0) = .error .byZero ∧
      ∀ kind, checkedDiv .int32 kind n d = .ok (div .int32 kind n d) := by
  intro n d
  have hn : n.EndsIn ValueType.int32.Admissible := ⟨by decide, by decide⟩
  have hd : d.lo ≤ d.hi := by decide
  have hfive : (singleton 5).EndsIn ValueType.int32.Admissible := ⟨by decide, by decide⟩
  have htwo : (singleton 2).lo ≤ (singleton 2).hi := Int.le_refl 2
  have hdiv : div .int32 .factor n d = .ok ⟨-4, 3⟩ := by decide
  have hzero : div .int32 .factor (singleton 5) (singleton 0) = .error .byZero := by decide
  obtain ⟨-, hfinds, -⟩ := factors_within_truncated hfive htwo
  obtain ⟨-, -, hinside, hchecked⟩ := factors_within_truncated hn hd
  exact ⟨hn, hd, hdiv, hinside _ hdiv, by decide, hfinds (by decide), hzero,
    (factors_within_truncated hfive (Int.le_refl 0)).1.mp hzero, hchecked (by decide)⟩

end FiniteDomains.Interval
