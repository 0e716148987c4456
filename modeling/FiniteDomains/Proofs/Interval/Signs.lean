import FiniteDomains.Proofs.Interval.Truncation

/-! Division under a change of sign. Negating the dividends or the divisors negates the quotients of
both kinds: what is rounded up on one side is rounded down on the other, so the bound computed for
the greatest quotient is the negation of the one computed for the least. -/
namespace FiniteDomains.Interval
variable {t : ValueType} {kind : QuotientKind} {n d n' d' : Interval} {f g : Int → Int → Int}
variable {P : Int → Prop} {a e v : Int}

def mirror (r : Interval) : Interval := ⟨-r.hi, -r.lo⟩

theorem mem_mirror {r : Interval} : v ∈ mirror r ↔ -v ∈ r := by
  simp only [mirror, mem_iff]
  omega

@[simp] theorem mirror_mirror (r : Interval) : r.mirror.mirror = r := by
  simp only [mirror, Int.neg_neg]

theorem Sturdy.mirror (h : n.Sturdy t) : n.mirror.Sturdy t where
  le := Int.neg_le_neg h.le
  ends :=
    { lo := ⟨h.ends.hi.2, by simpa only [Interval.mirror, Int.neg_neg] using h.ends.hi.1⟩
      hi := ⟨h.ends.lo.2, by simpa only [Interval.mirror, Int.neg_neg] using h.ends.lo.1⟩ }

@[simp] theorem hasZero_mirror (r : Interval) : r.mirror.hasZero = r.hasZero := by
  rw [Bool.eq_iff_iff, hasZero_iff, hasZero_iff, mem_mirror, Int.neg_zero]

theorem nonzeroPart_mirror (hzero : d ≠ singleton 0) :
    nonzeroPart d.mirror = (nonzeroPart d).mirror := by
  rw [Ne, eq_singleton_iff] at hzero
  by_cases hlo : d.lo = 0
  · have hhi : d.hi ≠ 0 := fun hhi => hzero ⟨hlo, hhi⟩
    simp [nonzeroPart, mirror, hlo, hhi]
  by_cases hhi : d.hi = 0
  · simp [nonzeroPart, mirror, hlo, hhi]
  · simp [nonzeroPart, mirror, hlo, hhi]

theorem endsHull_mirror_left (hn : n.EndsIn P) (h : ∀ a, P a → ∀ e, f (-a) e = -g a e) :
    endsHull f n.mirror d = (endsHull g n d).mirror := by
  simp only [endsHull, hull, mirror, h _ hn.lo, h _ hn.hi, mk.injEq]
  omega

theorem endsHull_mirror_right (hn : n.EndsIn P) (h : ∀ a, P a → ∀ e, f a (-e) = -g a e) :
    endsHull f n d.mirror = (endsHull g n d).mirror := by
  simp only [endsHull, hull, mirror, h _ hn.lo, h _ hn.hi, mk.injEq]
  omega

theorem signedQuotients_mirror
    (htruncated :
      endsHull (truncatedQuotient t) n' d' = (endsHull (truncatedQuotient t) n d).mirror)
    (hceil : endsHull (ceilQuotient t) n' d' = (endsHull (floorQuotient t) n d).mirror)
    (hfloor : endsHull (floorQuotient t) n' d' = (endsHull (ceilQuotient t) n d).mirror) :
    signedQuotients t kind n' d' = (signedQuotients t kind n d).map mirror := by
  -- Of other factors the least is the negation of the greatest, and the other way around.
  cases kind with
  | truncated => simp only [signedQuotients, htruncated, Except.map]
  | factor =>
    simp only [signedQuotients, hceil, hfloor, mirror, Int.neg_lt_neg_iff]
    split <;> rfl

/-! ### Rounded quotients -/

variable [t.Lawful]

theorem truncatedQuotient_neg (ha : t.Admissible a) (e : Int) :
    truncatedQuotient t (-a) e = -truncatedQuotient t a e := by
  have hmag := magnitude_le ha
  rw [truncatedQuotient_eq ⟨by omega, by omega⟩, truncatedQuotient_eq hmag, Int.neg_tdiv]

theorem ceilQuotient_neg (ha : t.Admissible a) (e : Int) :
    ceilQuotient t (-a) e = -floorQuotient t a e := by
  have hmag := magnitude_le ha
  rw [ceilQuotient_eq ⟨by omega, by omega⟩, floorQuotient_eq hmag, Int.neg_neg]

theorem floorQuotient_neg (ha : t.Admissible a) (e : Int) :
    floorQuotient t (-a) e = -ceilQuotient t a e := by
  have hmag := magnitude_le ha
  rw [floorQuotient_eq ⟨by omega, by omega⟩, ceilQuotient_eq hmag, Int.neg_neg]

theorem truncatedQuotient_neg_divisor (ha : t.Admissible a) (e : Int) :
    truncatedQuotient t a (-e) = -truncatedQuotient t a e := by
  have hmag := magnitude_le ha
  rw [truncatedQuotient_eq hmag, truncatedQuotient_eq hmag, Int.tdiv_neg]

theorem ceilQuotient_neg_divisor (ha : t.Admissible a) (e : Int) :
    ceilQuotient t a (-e) = -floorQuotient t a e := by
  have hmag := magnitude_le ha
  rw [ceilQuotient_eq hmag, floorQuotient_eq hmag, Int.neg_fdiv_neg]

theorem floorQuotient_neg_divisor (ha : t.Admissible a) (e : Int) :
    floorQuotient t a (-e) = -ceilQuotient t a e := by
  have hmag := magnitude_le ha
  rw [floorQuotient_eq hmag, ceilQuotient_eq hmag, Int.neg_neg, ← Int.neg_fdiv_neg, Int.neg_neg]

theorem signedQuotients_mirror_left (hn : n.EndsIn t.Admissible) :
    signedQuotients t kind n.mirror d = (signedQuotients t kind n d).map mirror :=
  signedQuotients_mirror (endsHull_mirror_left hn fun _ => truncatedQuotient_neg)
    (endsHull_mirror_left hn fun _ => ceilQuotient_neg)
    (endsHull_mirror_left hn fun _ => floorQuotient_neg)

theorem signedQuotients_mirror_right (hn : n.EndsIn t.Admissible) :
    signedQuotients t kind n d.mirror = (signedQuotients t kind n d).map mirror :=
  signedQuotients_mirror (endsHull_mirror_right hn fun _ => truncatedQuotient_neg_divisor)
    (endsHull_mirror_right hn fun _ => ceilQuotient_neg_divisor)
    (endsHull_mirror_right hn fun _ => floorQuotient_neg_divisor)

/-! ### Divisions -/

theorem div_mirror_left (hn : n.EndsIn t.Admissible) (hboth : 0 ∈ n → 0 ∉ d) :
    div t kind n.mirror d = (div t kind n d).map mirror := by
  -- The divisors alone decide between the cases of a division, once zero is not on both sides.
  have hnot : (n.hasZero && d.hasZero) = false := by
    rw [← Bool.not_eq_true, Bool.and_eq_true, hasZero_iff, hasZero_iff]
    exact not_and.mpr hboth
  have hlo := magnitude_le hn.lo
  have hhi := magnitude_le hn.hi
  have hmagnitude : t.unchecked (-max (t.unchecked n.lo.natAbs) (t.unchecked n.hi.natAbs)) =
      -max (t.unchecked n.lo.natAbs) (t.unchecked n.hi.natAbs) := by
    have hlofits : t.fits n.lo.natAbs = true := fits_of_magnitude ⟨by omega, by omega⟩
    have hhifits : t.fits n.hi.natAbs = true := fits_of_magnitude ⟨by omega, by omega⟩
    rw [ValueType.unchecked_eq hlofits, ValueType.unchecked_eq hhifits]
    exact ValueType.unchecked_eq (fits_of_magnitude ⟨by omega, by omega⟩)
  simp only [div, hasZero_mirror, hnot, Bool.false_eq_true, if_false]
  split_ifs
  · exact signedQuotients_mirror_left hn
  · rfl
  · simp only [mirror, Int.natAbs_neg, max_comm (t.unchecked n.hi.natAbs), hmagnitude, Except.map,
      Int.neg_neg]
  · exact signedQuotients_mirror_left hn
  · exact signedQuotients_mirror_left hn

theorem div_mirror_right (hn : n.EndsIn t.Admissible) (hd : d.lo ≤ d.hi)
    (hboth : 0 ∈ n → 0 ∉ d) : div t kind n d.mirror = (div t kind n d).map mirror := by
  have hboth' : 0 ∈ n → 0 ∉ d.mirror := by rwa [mem_mirror, Int.neg_zero]
  by_cases hzero : d = singleton 0
  · subst hzero
    have hnzero : 0 ∉ n := fun hin => hboth hin (mem_singleton.mpr rfl)
    rw [div_byZero hnzero]
    exact div_byZero hnzero
  have hzero' : d.mirror ≠ singleton 0 := by
    intro hmirror
    rw [← d.mirror_mirror, hmirror] at hzero
    exact hzero rfl
  by_cases hover : d.lo < 0 ∧ 0 < d.hi
  · have hnzero : 0 ∉ n := fun hin => hboth hin ⟨by omega, by omega⟩
    rw [div_across hn hnzero hover.1 hover.2,
      div_across hn hnzero (Int.neg_neg_of_pos hover.2) (Int.neg_pos_of_neg hover.1)]
    simp only [mirror, Except.map, Int.neg_neg]
  · rw [div_nonzeroPart hboth hd hover hzero,
      div_nonzeroPart hboth' (Int.neg_le_neg hd) (by simp only [mirror]; omega) hzero',
      nonzeroPart_mirror hzero, signedQuotients_mirror_right hn]

/-- Unless zero is a dividend and a divisor, negating the dividends or the divisors negates the
quotients of either kind or leaves the error, and negating both leaves everything as it is. -/
theorem division_changes_sign (hn : n.EndsIn t.Admissible) (hd : d.lo ≤ d.hi)
    (hboth : ¬(0 ∈ n ∧ 0 ∈ d)) (kind : QuotientKind) :
    div t kind n.mirror d = (div t kind n d).map mirror ∧
      div t kind n d.mirror = (div t kind n d).map mirror ∧
      div t kind n.mirror d.mirror = div t kind n d ∧
      (n.lo ≤ n.hi → ∀ n' ∈ [n, n.mirror], ∀ d' ∈ [d, d.mirror],
        checkedDiv t kind n' d' = .ok (div t kind n' d')) := by
  have hnot : 0 ∈ n → 0 ∉ d := not_and.mp hboth
  have hnot' : 0 ∈ n → 0 ∉ d.mirror := by rwa [mem_mirror, Int.neg_zero]
  refine ⟨div_mirror_left hn hnot, div_mirror_right hn hd hnot, ?_, fun hle => ?_⟩
  · rw [div_mirror_left hn hnot', div_mirror_right hn hd hnot]
    cases div t kind n d with
    | ok r => simp only [Except.map, mirror_mirror]
    | error cause => rfl
  · have hsturdy := hn.sturdy hle
    have hdle : d.mirror.lo ≤ d.mirror.hi := Int.neg_le_neg hd
    simp only [List.mem_cons, List.not_mem_nil, or_false, forall_eq_or_imp, forall_eq]
    exact ⟨⟨checkedDiv_eq hsturdy hd, checkedDiv_eq hsturdy hdle⟩,
      checkedDiv_eq hsturdy.mirror hd, checkedDiv_eq hsturdy.mirror hdle⟩

/-- With the least value, whose negation lies beyond the universe, and with zero as an end of the
divisors; and without a quotient. -/
theorem division_changes_sign_least :
    let n : Interval := ⟨-536870910, -3⟩
    let d : Interval := ⟨0, 2⟩
    n.EndsIn ValueType.int32.Admissible ∧ d.lo ≤ d.hi ∧ ¬(0 ∈ n ∧ 0 ∈ d) ∧
      div .int32 .factor n d = .ok ⟨-536870910, -2⟩ ∧
      div .int32 .factor ⟨3, 536870910⟩ d = .ok ⟨2, 536870910⟩ ∧
      div .int32 .factor n ⟨-2, 0⟩ = .ok ⟨2, 536870910⟩ ∧
      div .int32 .factor ⟨3, 536870910⟩ ⟨-2, 0⟩ = .ok ⟨-536870910, -2⟩ ∧
      div .int32 .factor (singleton (-5)) (singleton 2) = .error .noQuotient ∧
      checkedDiv .int32 .factor n.mirror d.mirror = .ok (div .int32 .factor n.mirror d.mirror) := by
  intro n d
  have hn : n.EndsIn ValueType.int32.Admissible := ⟨by decide, by decide⟩
  have hboth : ¬(0 ∈ n ∧ 0 ∈ d) := fun h => absurd h.1.2 (by decide)
  have hdiv : div .int32 .factor n d = .ok ⟨-536870910, -2⟩ := by decide
  obtain ⟨hleft, hright, hsame, hchecked⟩ :=
    division_changes_sign hn (by decide : d.lo ≤ d.hi) hboth .factor
  have hfive : (singleton 5).EndsIn ValueType.int32.Admissible := ⟨by decide, by decide⟩
  have hnone : div .int32 .factor (singleton 5) (singleton 2) = .error .noQuotient := by decide
  have hnot : ¬(0 ∈ singleton 5 ∧ 0 ∈ singleton 2) := fun h => absurd h.1.1 (by decide)
  have hfails := (division_changes_sign hfive (Int.le_refl 2) hnot .factor).1
  rw [hdiv] at hleft hright hsame
  rw [hnone] at hfails
  exact ⟨hn, by decide, hboth, hdiv, hleft, hright, hsame, hfails,
    hchecked (by decide) _ (by simp) _ (by simp)⟩

end FiniteDomains.Interval
