import FiniteDomains.Proofs.Interval.Truncation

/-! Interval arithmetic is monotone: operands inside others have their results inside those of the
others. For quotients this holds within the universe, and a division that finds any finds some for
the wider operands. -/
namespace FiniteDomains.Interval
variable {t : ValueType} {kind : QuotientKind} {x x₀ y y₀ n n₀ d d₀ r₀ : Interval} {q v : Int}

/-- An interval that is not inverted, inside another one. -/
structure Inside (r₀ r : Interval) : Prop where
  le : r₀.lo ≤ r₀.hi
  lo_le : r.lo ≤ r₀.lo
  le_hi : r₀.hi ≤ r.hi

theorem Inside.mem {r : Interval} (h : r₀.Inside r) (hv : v ∈ r₀) : v ∈ r :=
  ⟨Int.le_trans h.lo_le hv.1, Int.le_trans hv.2 h.le_hi⟩

theorem Inside.lo_mem {r : Interval} (h : r₀.Inside r) : r₀.lo ∈ r :=
  h.mem ⟨Int.le_refl _, h.le⟩

theorem Inside.hi_mem {r : Interval} (h : r₀.Inside r) : r₀.hi ∈ r :=
  h.mem ⟨h.le, Int.le_refl _⟩

theorem Inside.outer_le {r : Interval} (h : r₀.Inside r) : r.lo ≤ r.hi :=
  Int.le_trans h.lo_mem.1 h.lo_mem.2

theorem Inside.eq_singleton (h : r₀.Inside (singleton v)) : r₀ = singleton v :=
  eq_singleton_iff.mpr ⟨mem_singleton.mp h.lo_mem, mem_singleton.mp h.hi_mem⟩

theorem Inside.admissible {r : Interval} (h : r₀.Inside r) (hr : r.EndsIn t.Admissible) :
    r₀.EndsIn t.Admissible :=
  ⟨⟨Int.le_trans hr.lo.1 h.lo_le, Int.le_trans h.lo_mem.2 hr.hi.2⟩,
    ⟨Int.le_trans hr.lo.1 h.hi_mem.1, Int.le_trans h.le_hi hr.hi.2⟩⟩

theorem Spans.inside {r : Interval} {s₀ s : Set Int} (h₀ : r₀.Spans s₀) (h : r.Spans s)
    (hsub : s₀ ⊆ s) : r₀.Inside r :=
  ⟨h₀.least.2 h₀.greatest.1, h₀.least.mono h.least hsub, h₀.greatest.mono h.greatest hsub⟩

theorem hull_inside {a b c e : Int} {r : Interval} (ha : a ∈ r) (hb : b ∈ r) (hc : c ∈ r)
    (he : e ∈ r) : (hull a b c e).Inside r := by
  rw [mem_iff] at ha hb hc he
  refine ⟨?_, ?_, ?_⟩
  · simp only [hull]
    omega
  · simp only [hull]
    omega
  · simp only [hull]
    omega

/-! ### Sums, differences and products -/

variable [t.Lawful]

theorem Inside.sturdy {r : Interval} (h : r₀.Inside r) (hr : r.EndsIn t.Admissible) :
    r₀.Sturdy t :=
  (h.admissible hr).sturdy h.le

theorem Inside.wellMade (hx : x.EndsIn t.Admissible) (hy : y.EndsIn t.Admissible)
    (hx₀ : x₀.Inside x) (hy₀ : y₀.Inside y) : WellMade t x₀ y₀ ∧ WellMade t x y :=
  ⟨(hx₀.sturdy hx).wellMade (hy₀.sturdy hy),
    (hx.sturdy hx₀.outer_le).wellMade (hy.sturdy hy₀.outer_le)⟩

theorem add_inside (hx : x.EndsIn t.Admissible) (hy : y.EndsIn t.Admissible) (hx₀ : x₀.Inside x)
    (hy₀ : y₀.Inside y) : (add t x₀ y₀).Inside (add t x y) := by
  have hendsx := hx₀.admissible hx
  have hendsy := hy₀.admissible hy
  exact ⟨ValueType.clampedAdd_mono hendsx.lo hendsx.hi hendsy.lo hendsy.hi hx₀.le hy₀.le,
    ValueType.clampedAdd_mono hx.lo hendsx.lo hy.lo hendsy.lo hx₀.lo_le hy₀.lo_le,
    ValueType.clampedAdd_mono hendsx.hi hx.hi hendsy.hi hy.hi hx₀.le_hi hy₀.le_hi⟩

theorem sub_inside (hx : x.EndsIn t.Admissible) (hy : y.EndsIn t.Admissible) (hx₀ : x₀.Inside x)
    (hy₀ : y₀.Inside y) : (sub t x₀ y₀).Inside (sub t x y) := by
  have hendsx := hx₀.admissible hx
  have hendsy := hy₀.admissible hy
  exact ⟨ValueType.clampedSub_mono hendsx.lo hendsx.hi hendsy.hi hendsy.lo hx₀.le hy₀.le,
    ValueType.clampedSub_mono hx.lo hendsx.lo hy.hi hendsy.hi hx₀.lo_le hy₀.le_hi,
    ValueType.clampedSub_mono hendsx.hi hx.hi hendsy.lo hy.lo hx₀.le_hi hy₀.lo_le⟩

theorem mul_inside (hx₀ : x₀.Inside x) (hy₀ : y₀.Inside y) :
    (mul t x₀ y₀).Inside (mul t x y) := by
  rw [mul]
  simp only [ValueType.clampedMul_eq]
  exact hull_inside (clamp_mul_mem hx₀.lo_mem hy₀.lo_mem) (clamp_mul_mem hx₀.lo_mem hy₀.hi_mem)
    (clamp_mul_mem hx₀.hi_mem hy₀.lo_mem) (clamp_mul_mem hx₀.hi_mem hy₀.hi_mem)

theorem square_inside (hx₀ : x₀.Inside x) : (square t x₀).Inside (square t x) := by
  have hmid : t.clamp (x₀.lo * x₀.lo) ∈ square t x₀ := clamp_square_mem ⟨Int.le_refl _, hx₀.le⟩
  obtain ⟨⟨a, ha, hlo⟩, b, hb, hhi⟩ := square_attained (t := t) hx₀.le
  have hlomem : (square t x₀).lo ∈ square t x := hlo ▸ clamp_square_mem (hx₀.mem ha)
  have hhimem : (square t x₀).hi ∈ square t x := hhi ▸ clamp_square_mem (hx₀.mem hb)
  exact ⟨Int.le_trans hmid.1 hmid.2, hlomem.1, hhimem.2⟩

/-! ### Quotients -/

theorem signedQuotients_attained (hn : n.EndsIn t.Admissible) (hle : n.lo ≤ n.hi)
    (hd : d.lo ≤ d.hi) (hsign : 0 < d.lo ∨ d.hi < 0) {r : Interval}
    (h : signedQuotients t .factor n d = .ok r) :
    r.lo ≤ r.hi ∧ (∃ a ∈ n, ∃ e ∈ d, Above r.lo a e) ∧ ∃ a ∈ n, ∃ e ∈ d, Below r.hi a e := by
  simp only [signedQuotients] at h
  split at h
  · cases h
  next hle' =>
  cases h
  obtain ⟨a, ha, e, he, hlo⟩ := (endsHull_attained (ceilQuotient t) hle hd).1
  obtain ⟨b, hb, g, hg, hhi⟩ := (endsHull_attained (floorQuotient t) hle hd).2
  have he' : e ≠ 0 := by
    rw [mem_iff] at he
    omega
  have hg' : g ≠ 0 := by
    rw [mem_iff] at hg
    omega
  refine ⟨by simp only; omega, ⟨a, ha, e, he, ?_⟩, b, hb, g, hg, ?_⟩
  · exact (ceilQuotient_le_iff (hn.of_mem ha) he').mp (Int.le_of_eq hlo.symm)
  · exact (le_floorQuotient_iff (hn.of_mem hb) hg').mp (Int.le_of_eq hhi)

omit [t.Lawful] in
theorem Below.le_magnitude {a e m : Int} (h : Below q a e) (ha : -m ≤ a ∧ a ≤ m) : q ≤ m := by
  by_contra hlt
  rcases h with ⟨he, h⟩ | ⟨he, h⟩
  · have hmul : q * 1 ≤ q * e := Int.mul_le_mul_of_nonneg_left he (by omega)
    omega
  · have hmul : q * e ≤ q * -1 := Int.mul_le_mul_of_nonneg_left (by omega) (by omega)
    omega

omit [t.Lawful] in
theorem Above.neg_magnitude_le {a e m : Int} (h : Above q a e) (ha : -m ≤ a ∧ a ≤ m) : -m ≤ q := by
  have hneg : Below (-q) (-a) e := by
    rw [Below, Int.neg_mul]
    rw [Above] at h
    omega
  have hle := hneg.le_magnitude (m := m) (by omega)
  omega

theorem signedQuotients_inside (hn : n.EndsIn t.Admissible) (hn₀ : n₀.Inside n)
    (hd₀ : d₀.Inside d) (hsign : 0 < d.lo ∨ d.hi < 0)
    (h₀ : signedQuotients t .factor n₀ d₀ = .ok r₀) :
    ∃ r, signedQuotients t .factor n d = .ok r ∧ r₀.Inside r := by
  have hlo := hd₀.lo_le
  have hhi := hd₀.le_hi
  have hle := hd₀.le
  obtain ⟨hr₀, ⟨a, ha, e, he, habove⟩, b, hb, g, hg, hbelow⟩ :=
    signedQuotients_attained (hn₀.admissible hn) hn₀.le hle (by omega) h₀
  have hmin := habove.lo_le hn hsign (hn₀.mem ha) (hd₀.mem he)
  have hmax := hbelow.le_hi hn hsign (hn₀.mem hb) (hd₀.mem hg)
  exact ⟨_, signedQuotients_eq (by omega), hr₀, hmin, hmax⟩

omit [t.Lawful] in
theorem nonzeroPart_inside (hd₀ : d₀.Inside d) (hover : ¬(d.lo < 0 ∧ 0 < d.hi))
    (hzero₀ : d₀ ≠ singleton 0) : (nonzeroPart d₀).Inside (nonzeroPart d) := by
  have hlo := hd₀.lo_le
  have hhi := hd₀.le_hi
  have hover₀ : ¬(d₀.lo < 0 ∧ 0 < d₀.hi) := by omega
  have inner {e : Int} (he : e ∈ nonzeroPart d₀) : e ∈ nonzeroPart d := by
    rw [mem_nonzeroPart hover₀] at he
    exact (mem_nonzeroPart hover).mpr ⟨hd₀.mem he.1, he.2⟩
  obtain ⟨hle, -⟩ := nonzeroPart_sign hd₀.le hover₀ hzero₀
  exact ⟨hle, (inner ⟨Int.le_refl _, hle⟩).1, (inner ⟨hle, Int.le_refl _⟩).2⟩

theorem div_factor_magnitude (hn : n.EndsIn t.Admissible) (hle : n.lo ≤ n.hi) (hd : d.lo ≤ d.hi)
    (hboth : 0 ∈ n → 0 ∉ d) (hzero : d ≠ singleton 0) {r : Interval}
    (h : div t .factor n d = .ok r) :
    r.Inside ⟨-max (n.lo.natAbs : Int) n.hi.natAbs, max (n.lo.natAbs : Int) n.hi.natAbs⟩ := by
  by_cases hover : d.lo < 0 ∧ 0 < d.hi
  · have hnz : 0 ∉ n := fun hin => hboth hin ⟨by omega, by omega⟩
    rw [div_across hn hnz hover.1 hover.2] at h
    cases h
    exact ⟨by simp only; omega, Int.le_refl _, Int.le_refl _⟩
  · obtain ⟨hpart, hsign⟩ := nonzeroPart_sign hd hover hzero
    rw [div_nonzeroPart hboth hd hover hzero] at h
    obtain ⟨hr, ⟨a, ha, e, -, habove⟩, b, hb, g, -, hbelow⟩ :=
      signedQuotients_attained hn hle hpart hsign h
    rw [mem_iff] at ha hb
    have hmin := habove.neg_magnitude_le (m := max (n.lo.natAbs : Int) n.hi.natAbs) (by omega)
    have hmax := hbelow.le_magnitude (m := max (n.lo.natAbs : Int) n.hi.natAbs) (by omega)
    exact ⟨hr, hmin, hmax⟩

theorem div_factor_inside (hn : n.EndsIn t.Admissible) (hn₀ : n₀.Inside n) (hd₀ : d₀.Inside d)
    (hboth : 0 ∈ n → 0 ∉ d) (hzero₀ : d₀ ≠ singleton 0) (h₀ : div t .factor n₀ d₀ = .ok r₀) :
    ∃ r, div t .factor n d = .ok r ∧ ∀ v ∈ r₀, v ∈ r := by
  have hboth₀ (hnz : 0 ∈ n₀) (hdz : 0 ∈ d₀) : False := hboth (hn₀.mem hnz) (hd₀.mem hdz)
  have hends₀ := hn₀.admissible hn
  by_cases hover : d.lo < 0 ∧ 0 < d.hi
  · have hnz : 0 ∉ n := fun hin => hboth hin ⟨by omega, by omega⟩
    refine ⟨_, div_across hn hnz hover.1 hover.2, fun v hv => ?_⟩
    have hmag := (div_factor_magnitude hends₀ hn₀.le hd₀.le hboth₀ hzero₀ h₀).mem hv
    obtain ⟨hle, hlo, hhi⟩ := hn₀
    rw [mem_mk] at hmag ⊢
    omega
  · have hlo := hd₀.lo_le
    have hhi := hd₀.le_hi
    have hzero : d ≠ singleton 0 := by
      rintro rfl
      exact hzero₀ hd₀.eq_singleton
    rw [div_nonzeroPart hboth₀ hd₀.le (by omega) hzero₀] at h₀
    rw [div_nonzeroPart hboth hd₀.outer_le hover hzero]
    have hsign := (nonzeroPart_sign hd₀.outer_le hover hzero).2
    obtain ⟨r, hr, hin⟩ :=
      signedQuotients_inside hn hn₀ (nonzeroPart_inside hd₀ hover hzero₀) hsign h₀
    exact ⟨r, hr, fun v hv => hin.mem hv⟩

omit [t.Lawful] in
theorem quotients_subset (hn₀ : n₀.Inside n) (hd₀ : d₀.Inside d) :
    quotients n₀ d₀ ⊆ quotients n d := by
  rintro _ ⟨a, ha, e, he, hne, rfl⟩
  exact ⟨a, hn₀.mem ha, e, hd₀.mem he, hne, rfl⟩

theorem div_truncated_inside (hn : n.EndsIn t.Admissible) (hn₀ : n₀.Inside n) (hd₀ : d₀.Inside d)
    (hboth : 0 ∈ n → 0 ∉ d) (hzero₀ : d₀ ≠ singleton 0) (h₀ : div t .truncated n₀ d₀ = .ok r₀) :
    ∃ r, div t .truncated n d = .ok r ∧ ∀ v ∈ r₀, v ∈ r := by
  have hboth₀ (hnz : 0 ∈ n₀) (hdz : 0 ∈ d₀) : False := hboth (hn₀.mem hnz) (hd₀.mem hdz)
  have hzero : d ≠ singleton 0 := by
    rintro rfl
    exact hzero₀ hd₀.eq_singleton
  obtain ⟨r, hr, hspans⟩ := div_truncated_spans hn hn₀.outer_le hd₀.outer_le hboth hzero
  obtain ⟨r', hr', hspans₀⟩ :=
    div_truncated_spans (hn₀.admissible hn) hn₀.le hd₀.le hboth₀ hzero₀
  rw [h₀] at hr'
  cases hr'
  have hin := hspans₀.inside hspans (quotients_subset hn₀ hd₀)
  exact ⟨r, hr, fun v hv => hin.mem hv⟩

/-- A division that finds quotients finds them all for wider operands as well. -/
theorem div_inside (hn : n.EndsIn t.Admissible) (hn₀ : n₀.Inside n) (hd₀ : d₀.Inside d)
    (h₀ : div t kind n₀ d₀ = .ok r₀) :
    ∃ r, div t kind n d = .ok r ∧ ∀ v, t.Admissible v → v ∈ r₀ → v ∈ r := by
  by_cases hwhole : 0 ∈ n ∧ 0 ∈ d
  · exact ⟨_, div_whole hwhole.1 hwhole.2, fun v hv _ => hv⟩
  have hboth : 0 ∈ n → 0 ∉ d := not_and.mp hwhole
  have hzero₀ : d₀ ≠ singleton 0 := by
    rintro rfl
    have hnz : 0 ∉ n₀ := fun hin => hboth (hn₀.mem hin) (hd₀.mem (mem_singleton.mpr rfl))
    rw [div_byZero hnz] at h₀
    cases h₀
  cases kind with
  | truncated =>
    obtain ⟨r, hr, hin⟩ := div_truncated_inside hn hn₀ hd₀ hboth hzero₀ h₀
    exact ⟨r, hr, fun v _ hv => hin v hv⟩
  | factor =>
    obtain ⟨r, hr, hin⟩ := div_factor_inside hn hn₀ hd₀ hboth hzero₀ h₀
    exact ⟨r, hr, fun v _ hv => hin v hv⟩

/-- Every result on narrower operands is inside the one on wider operands. A division of the wider
ones that fails fails for the narrower ones, and one that does not has all their quotients that are
values of the universe. -/
theorem arithmetic_inside (hx : x.EndsIn t.Admissible) (hy : y.EndsIn t.Admissible)
    (hx₀ : x₀.Inside x) (hy₀ : y₀.Inside y) :
    (add t x₀ y₀).Inside (add t x y) ∧ (sub t x₀ y₀).Inside (sub t x y) ∧
      (mul t x₀ y₀).Inside (mul t x y) ∧ (square t x₀).Inside (square t x) ∧
      WellMade t x₀ y₀ ∧ WellMade t x y ∧
      ∀ kind, (∀ error, div t kind x y = .error error →
          ∃ error₀, div t kind x₀ y₀ = .error error₀) ∧
        ∀ r₀ r, div t kind x₀ y₀ = .ok r₀ → div t kind x y = .ok r →
          ∀ v, t.Admissible v → v ∈ r₀ → v ∈ r := by
  obtain ⟨hmade₀, hmade⟩ := Inside.wellMade hx hy hx₀ hy₀
  refine ⟨add_inside hx hy hx₀ hy₀, sub_inside hx hy hx₀ hy₀, mul_inside hx₀ hy₀,
    square_inside hx₀, hmade₀, hmade, fun kind => ⟨?_, ?_⟩⟩
  · intro error herror
    cases h₀ : div t kind x₀ y₀ with
    | error error₀ => exact ⟨error₀, rfl⟩
    | ok r₀ =>
      obtain ⟨r, hr, -⟩ := div_inside hx hx₀ hy₀ h₀
      rw [herror] at hr
      cases hr
  · intro r₀ r h₀ hr v hv hmem
    obtain ⟨r', hr', hin⟩ := div_inside hx hx₀ hy₀ h₀
    rw [hr] at hr'
    cases hr'
    exact hin v hv hmem

/-- A divisor over zero is narrowed to one with zero as an end; and two divisions without an exact
quotient, one inside the other. -/
theorem arithmetic_inside_nudged :
    let x : Interval := ⟨4, 10⟩
    let x₀ : Interval := ⟨5, 5⟩
    let y : Interval := ⟨-2, 3⟩
    let y₀ : Interval := ⟨0, 2⟩
    let n : Interval := ⟨1, 2⟩
    let n₀ : Interval := ⟨1, 1⟩
    let d : Interval := ⟨3, 5⟩
    let d₀ : Interval := ⟨3, 4⟩
    x.EndsIn ValueType.int32.Admissible ∧ y.EndsIn ValueType.int32.Admissible ∧ x₀.Inside x ∧
      y₀.Inside y ∧ (sub .int32 x₀ y₀).Inside (sub .int32 x y) ∧
      (square .int32 y₀).Inside (square .int32 y) ∧
      div .int32 .factor x₀ y₀ = .ok ⟨3, 5⟩ ∧ div .int32 .factor x y = .ok ⟨-10, 10⟩ ∧
      (∀ v, ValueType.int32.Admissible v → v ∈ (⟨3, 5⟩ : Interval) → v ∈ (⟨-10, 10⟩ : Interval)) ∧
      n₀.Inside n ∧ d₀.Inside d ∧ div .int32 .factor n d = .error .noQuotient ∧
      WellMade .int32 x₀ y₀ ∧ WellMade .int32 x y ∧
      ∃ error₀, div .int32 .factor n₀ d₀ = .error error₀ := by
  intro x x₀ y y₀ n n₀ d d₀
  have hx : x.EndsIn ValueType.int32.Admissible := ⟨by decide, by decide⟩
  have hy : y.EndsIn ValueType.int32.Admissible := ⟨by decide, by decide⟩
  have hn : n.EndsIn ValueType.int32.Admissible := ⟨by decide, by decide⟩
  have hd : d.EndsIn ValueType.int32.Admissible := ⟨by decide, by decide⟩
  have hx₀ : x₀.Inside x := ⟨by decide, by decide, by decide⟩
  have hy₀ : y₀.Inside y := ⟨by decide, by decide, by decide⟩
  have hn₀ : n₀.Inside n := ⟨by decide, by decide, by decide⟩
  have hd₀ : d₀.Inside d := ⟨by decide, by decide, by decide⟩
  have hinner : div .int32 .factor x₀ y₀ = .ok ⟨3, 5⟩ := by decide
  have houter : div .int32 .factor x y = .ok ⟨-10, 10⟩ := by decide
  have hfails : div .int32 .factor n d = .error .noQuotient := by decide
  obtain ⟨-, hsub, -, -, hmade₀, hmade, hdiv⟩ := arithmetic_inside hx hy hx₀ hy₀
  obtain ⟨-, -, -, hsquare, -⟩ := arithmetic_inside hy hx hy₀ hx₀
  obtain ⟨-, -, -, -, -, -, hdiv'⟩ := arithmetic_inside hn hd hn₀ hd₀
  exact ⟨hx, hy, hx₀, hy₀, hsub, hsquare, hinner, houter, (hdiv .factor).2 _ _ hinner houter, hn₀,
    hd₀, hfails, hmade₀, hmade, (hdiv' .factor).1 _ hfails⟩

end FiniteDomains.Interval
