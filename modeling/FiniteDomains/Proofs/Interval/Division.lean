import FiniteDomains.Interval.Division
import FiniteDomains.Proofs.Interval.Arithmetic

/-! The other factor of a product lies in the bounds computed for it, and where a division fails
there is none. With a divisor of one sign the quotients by its two ends bound all the others; a
divisor that reaches over zero leaves the magnitude of the dividend. -/
namespace FiniteDomains.Interval
variable {t : ValueType} {kind : QuotientKind} {n d : Interval} {a b e q m lo hi : Int}

theorem le_fdiv_of_pos (hb : 0 < b) : q ≤ a.fdiv b ↔ q * b ≤ a := by
  rw [Int.fdiv_eq_ediv_of_nonneg a (Int.le_of_lt hb)]
  exact Int.le_ediv_iff_mul_le hb

theorem le_fdiv_of_neg (hb : b < 0) : q ≤ a.fdiv b ↔ a ≤ q * b := by
  have hneg : q ≤ (-a).fdiv (-b) ↔ q * -b ≤ -a := le_fdiv_of_pos (by omega)
  rw [Int.neg_fdiv_neg, Int.mul_neg] at hneg
  rw [hneg]
  omega

theorem fdiv_bounds_of_pos (ha : -m ≤ a ∧ a ≤ m) (hb : 0 < b) :
    -m ≤ a.fdiv b ∧ a.fdiv b ≤ m := by
  have hself : a.fdiv b * b ≤ a := (le_fdiv_of_pos hb).mp (Int.le_refl _)
  constructor
  · rw [le_fdiv_of_pos hb, Int.neg_mul]
    have hmul : m * 1 ≤ m * b := Int.mul_le_mul_of_nonneg_left hb (by omega)
    omega
  · by_contra hlt
    have hmul : a.fdiv b * 1 ≤ a.fdiv b * b := Int.mul_le_mul_of_nonneg_left hb (by omega)
    omega

theorem fdiv_magnitude (ha : -m ≤ a ∧ a ≤ m) : -m ≤ a.fdiv b ∧ a.fdiv b ≤ m := by
  obtain hneg | rfl | hpos := Int.lt_trichotomy b 0
  · rw [← Int.neg_fdiv_neg]
    exact fdiv_bounds_of_pos ⟨by omega, by omega⟩ (by omega)
  · rw [Int.fdiv_zero]
    omega
  · exact fdiv_bounds_of_pos ha hpos

theorem tdiv_magnitude (ha : -m ≤ a ∧ a ≤ m) : -m ≤ a.tdiv b ∧ a.tdiv b ≤ m := by
  have hle := Int.natAbs_tdiv_le_natAbs a b
  omega

/-- A number that is at most the exact quotient of `a` by `b`. -/
def Below (q a b : Int) : Prop := 0 < b ∧ q * b ≤ a ∨ b < 0 ∧ a ≤ q * b

/-- A number that is at least the exact quotient of `a` by `b`. -/
def Above (q a b : Int) : Prop := 0 < b ∧ a ≤ q * b ∨ b < 0 ∧ q * b ≤ a

theorem endsHull_attained (f : Int → Int → Int) (hn : n.lo ≤ n.hi) (hd : d.lo ≤ d.hi) :
    (∃ a ∈ n, ∃ e ∈ d, (endsHull f n d).lo = f a e) ∧
      ∃ a ∈ n, ∃ e ∈ d, (endsHull f n d).hi = f a e := by
  have hnlo : n.lo ∈ n := ⟨Int.le_refl _, hn⟩
  have hnhi : n.hi ∈ n := ⟨hn, Int.le_refl _⟩
  have hdlo : d.lo ∈ d := ⟨Int.le_refl _, hd⟩
  have hdhi : d.hi ∈ d := ⟨hd, Int.le_refl _⟩
  have hmin : (endsHull f n d).lo = f n.lo d.lo ∨ (endsHull f n d).lo = f n.lo d.hi ∨
      (endsHull f n d).lo = f n.hi d.lo ∨ (endsHull f n d).lo = f n.hi d.hi := by
    simp only [endsHull, hull]
    omega
  have hmax : (endsHull f n d).hi = f n.lo d.lo ∨ (endsHull f n d).hi = f n.lo d.hi ∨
      (endsHull f n d).hi = f n.hi d.lo ∨ (endsHull f n d).hi = f n.hi d.hi := by
    simp only [endsHull, hull]
    omega
  constructor
  · rcases hmin with h | h | h | h
    · exact ⟨_, hnlo, _, hdlo, h⟩
    · exact ⟨_, hnlo, _, hdhi, h⟩
    · exact ⟨_, hnhi, _, hdlo, h⟩
    · exact ⟨_, hnhi, _, hdhi, h⟩
  · rcases hmax with h | h | h | h
    · exact ⟨_, hnlo, _, hdlo, h⟩
    · exact ⟨_, hnlo, _, hdhi, h⟩
    · exact ⟨_, hnhi, _, hdlo, h⟩
    · exact ⟨_, hnhi, _, hdhi, h⟩

theorem signedQuotients_eq (h : (endsHull (ceilQuotient t) n d).lo
    ≤ (endsHull (floorQuotient t) n d).hi) : signedQuotients t .factor n d =
      .ok ⟨(endsHull (ceilQuotient t) n d).lo, (endsHull (floorQuotient t) n d).hi⟩ := by
  simp only [signedQuotients]
  rw [if_neg (by omega)]

theorem signedQuotients_ne_byZero : signedQuotients t kind n d ≠ .error .byZero := by
  cases kind with
  | truncated => simp [signedQuotients]
  | factor =>
    simp only [signedQuotients]
    split <;> simp

/-! ### The cases of a division -/

theorem hasZero_iff {r : Interval} : r.hasZero = true ↔ 0 ∈ r := by
  simp only [hasZero, mem_iff, Bool.and_eq_true, Bool.not_eq_true', decide_eq_false_iff_not]
  omega

theorem avoidsZero_iff {r : Interval} : r.avoidsZero = true ↔ 0 < r.lo ∨ r.hi < 0 := by
  simp only [avoidsZero, Bool.or_eq_true, decide_eq_true_eq]

theorem hasZero_eq_false_iff {r : Interval} : r.hasZero = false ↔ 0 ∉ r := by
  rw [← Bool.not_eq_true, hasZero_iff]

theorem mem_singleton {v : Int} : v ∈ singleton a ↔ v = a := by
  simp only [singleton, mem_mk]
  omega

theorem eq_singleton_iff {r : Interval} {v : Int} : r = singleton v ↔ r.lo = v ∧ r.hi = v := by
  cases r
  simp only [singleton, mk.injEq]

/-- The nonzero values of an interval, unless it has some on both sides of zero. -/
def nonzeroPart (d : Interval) : Interval :=
  if d.lo = 0 then ⟨1, d.hi⟩ else if d.hi = 0 then ⟨d.lo, -1⟩ else d

theorem mem_nonzeroPart (hover : ¬(d.lo < 0 ∧ 0 < d.hi)) :
    e ∈ nonzeroPart d ↔ e ∈ d ∧ e ≠ 0 := by
  simp only [nonzeroPart]
  split
  · rw [mem_mk, mem_iff]
    omega
  split
  · rw [mem_mk, mem_iff]
    omega
  · rw [mem_iff]
    omega

theorem nonzeroPart_sign (hd : d.lo ≤ d.hi) (hover : ¬(d.lo < 0 ∧ 0 < d.hi))
    (hzero : d ≠ singleton 0) : (nonzeroPart d).lo ≤ (nonzeroPart d).hi ∧
      (0 < (nonzeroPart d).lo ∨ (nonzeroPart d).hi < 0) := by
  rw [Ne, eq_singleton_iff] at hzero
  simp only [nonzeroPart]
  split
  · simp only
    omega
  split
  · simp only
    omega
  · omega

theorem div_whole (hn : 0 ∈ n) (hd : 0 ∈ d) : div t kind n d = .ok (whole t) := by
  simp only [div, hasZero_iff.mpr hn, hasZero_iff.mpr hd, Bool.and_self, if_true]

theorem div_byZero (hn : 0 ∉ n) : div t kind n (singleton 0) = .error .byZero := by
  have havoid : (singleton 0).avoidsZero = false := rfl
  simp only [div, hasZero_eq_false_iff.mpr hn, havoid, Bool.false_and, Bool.false_eq_true,
    if_false]
  rfl

theorem div_oneSided (hsign : 0 < d.lo ∨ d.hi < 0) :
    div t kind n d = signedQuotients t kind n d := by
  have hzero : 0 ∉ d := by
    rw [mem_iff]
    omega
  simp only [div, hasZero_eq_false_iff.mpr hzero, avoidsZero_iff.mpr hsign, Bool.and_false,
    Bool.false_eq_true, if_false, if_true]

theorem div_nonzeroPart (hboth : 0 ∈ n → 0 ∉ d) (hd : d.lo ≤ d.hi)
    (hover : ¬(d.lo < 0 ∧ 0 < d.hi)) (hzero : d ≠ singleton 0) :
    div t kind n d = signedQuotients t kind n (nonzeroPart d) := by
  by_cases hsign : 0 < d.lo ∨ d.hi < 0
  · have hpart : nonzeroPart d = d := by
      rw [nonzeroPart, if_neg (by omega), if_neg (by omega)]
    rw [div_oneSided hsign, hpart]
  have havoid : d.avoidsZero = false := by
    rw [← Bool.not_eq_true, avoidsZero_iff]
    exact hsign
  have hn : 0 ∉ n := fun hin => hboth hin ⟨by omega, by omega⟩
  rw [Ne, eq_singleton_iff] at hzero
  simp only [div, hasZero_eq_false_iff.mpr hn, havoid, Bool.false_and, Bool.false_eq_true,
    if_false, if_neg hzero, if_neg hover, nonzeroPart]
  split
  · rfl
  · rw [if_pos (by omega)]

/-! ### Well-formed quotients -/

theorem checkedQuotients_onlyMalformed (quotients : Except DivisionError Interval) :
    OnlyMalformed (checkedQuotients quotients) := by
  cases quotients with
  | ok r => exact (make_onlyMalformed _ _).map _
  | error cause => exact .ok _

theorem checkedDiv_onlyMalformed : OnlyMalformed (checkedDiv t kind n d) := by
  simp only [checkedDiv]
  split_ifs
  · exact .ok _
  · exact checkedQuotients_onlyMalformed _
  · exact .ok _
  · exact (make_onlyMalformed _ _).map _
  · exact (make_onlyMalformed _ _).bind fun _ => checkedQuotients_onlyMalformed _
  · exact (make_onlyMalformed _ _).bind fun _ => checkedQuotients_onlyMalformed _

theorem signedQuotients_le {r : Interval} (hr : signedQuotients t kind n d = .ok r) :
    r.lo ≤ r.hi := by
  cases kind with
  | truncated =>
    cases hr
    simp only [endsHull, hull]
    omega
  | factor =>
    simp only [signedQuotients] at hr
    split at hr
    · cases hr
    · cases hr
      simp only
      omega

theorem checkedQuotients_eq :
    checkedQuotients (signedQuotients t kind n d) = .ok (signedQuotients t kind n d) := by
  cases hr : signedQuotients t kind n d with
  | ok r =>
    rw [checkedQuotients, checked_eq (signedQuotients_le hr)]
    rfl
  | error cause => rfl

theorem neg_magnitude_le (hn : n.Sturdy t) :
    let magnitude := max (t.unchecked n.lo.natAbs) (t.unchecked n.hi.natAbs)
    t.unchecked (-magnitude) ≤ magnitude := by
  have habs {v : Int} (hv : t.Negatable v) :
      t.unchecked v.natAbs = v.natAbs ∧ t.unchecked (-(v.natAbs : Int)) = -(v.natAbs : Int) := by
    have hcases : (v.natAbs : Int) = v ∨ (v.natAbs : Int) = -v := by omega
    rcases hcases with heq | heq
    · rw [heq]
      exact ⟨ValueType.unchecked_eq hv.1, ValueType.unchecked_eq hv.2⟩
    · rw [heq, Int.neg_neg]
      exact ⟨ValueType.unchecked_eq hv.2, ValueType.unchecked_eq hv.1⟩
  obtain ⟨hlo, hlo'⟩ := habs hn.ends.lo
  obtain ⟨hhi, hhi'⟩ := habs hn.ends.hi
  intro magnitude
  have hmag : magnitude = max (n.lo.natAbs : Int) n.hi.natAbs := by rw [← hlo, ← hhi]
  rcases max_choice (n.lo.natAbs : Int) n.hi.natAbs with heq | heq
  · rw [hmag, heq, hlo']
    omega
  · rw [hmag, heq, hhi']
    omega

theorem checkedDiv_eq (hn : n.Sturdy t) (hd : d.lo ≤ d.hi) :
    checkedDiv t kind n d = .ok (div t kind n d) := by
  simp only [checkedDiv, div]
  split_ifs with hwhole havoid hzero hover hlo
  · rfl
  · exact checkedQuotients_eq
  · rfl
  · rw [make_eq (neg_magnitude_le hn)]
    rfl
  · rw [make_eq (by omega)]
    exact checkedQuotients_eq
  · rw [avoidsZero_iff] at havoid
    rw [make_eq (by omega)]
    exact checkedQuotients_eq

/-- All calculations with two operands make intervals of the ends computed for them. -/
structure WellMade (t : ValueType) (x y : Interval) : Prop where
  add : checkedAdd t x y = .ok (add t x y)
  sub : checkedSub t x y = .ok (sub t x y)
  mul : checkedMul t x y = .ok (mul t x y)
  square : checkedSquare t x = .ok (square t x)
  div : ∀ kind, checkedDiv t kind x y = .ok (div t kind x y)

variable [t.Lawful]

theorem Sturdy.wellMade {x y : Interval} (hx : x.Sturdy t) (hy : y.Sturdy t) : WellMade t x y :=
  ⟨checkedAdd_eq hx hy, checkedSub_eq hx hy, checkedMul_eq x y, checkedSquare_eq x,
    fun _ => checkedDiv_eq hx hy.le⟩

/-! ### Rounded quotients of values -/

theorem fits_of_magnitude (h : -(t.maxValue + 1) ≤ a ∧ a ≤ t.maxValue + 1) :
    t.fits a = true := by
  have hmax := ValueType.Lawful.one_le_max (t := t)
  exact ValueType.Lawful.fits_near _ (by omega) (by omega)

theorem magnitude_le (h : t.Admissible a) : -(t.maxValue + 1) ≤ a ∧ a ≤ t.maxValue + 1 := by
  have hmin := ValueType.Lawful.min_eq (t := t)
  obtain ⟨hlo, hhi⟩ := h
  omega

theorem floorQuotient_eq (ha : -(t.maxValue + 1) ≤ a ∧ a ≤ t.maxValue + 1) :
    floorQuotient t a b = a.fdiv b :=
  ValueType.unchecked_eq (fits_of_magnitude (fdiv_magnitude ha))

theorem ceilQuotient_eq (ha : -(t.maxValue + 1) ≤ a ∧ a ≤ t.maxValue + 1) :
    ceilQuotient t a b = -((-a).fdiv b) := by
  have hneg : -(t.maxValue + 1) ≤ -a ∧ -a ≤ t.maxValue + 1 := by omega
  have hquot := fdiv_magnitude (b := b) hneg
  have hback : -(t.maxValue + 1) ≤ -((-a).fdiv b) ∧ -((-a).fdiv b) ≤ t.maxValue + 1 := by omega
  rw [ceilQuotient, ValueType.unchecked_eq (fits_of_magnitude hneg),
    ValueType.unchecked_eq (fits_of_magnitude hquot),
    ValueType.unchecked_eq (fits_of_magnitude hback)]

theorem le_floorQuotient_iff (ha : t.Admissible a) (hb : b ≠ 0) :
    q ≤ floorQuotient t a b ↔ Below q a b := by
  rw [floorQuotient_eq (magnitude_le ha), Below]
  by_cases hpos : 0 < b
  · rw [le_fdiv_of_pos hpos]
    omega
  · rw [le_fdiv_of_neg (by omega)]
    omega

theorem ceilQuotient_le_iff (ha : t.Admissible a) (hb : b ≠ 0) :
    ceilQuotient t a b ≤ q ↔ Above q a b := by
  have hneg : ceilQuotient t a b ≤ q ↔ -q ≤ (-a).fdiv b := by
    rw [ceilQuotient_eq (magnitude_le ha)]
    omega
  rw [hneg, Above]
  by_cases hpos : 0 < b
  · rw [le_fdiv_of_pos hpos, Int.neg_mul]
    omega
  · rw [le_fdiv_of_neg (by omega), Int.neg_mul]
    omega

/-! ### Divisors of one sign -/

theorem Below.le_hi (h : Below q a e) (hn : n.EndsIn t.Admissible)
    (hsign : 0 < d.lo ∨ d.hi < 0) (ha : a ∈ n) (he : e ∈ d) :
    q ≤ (endsHull (floorQuotient t) n d).hi := by
  have hmid := mul_between he q
  simp only [Int.mul_comm _ q, Set.mem_uIcc] at hmid
  rw [mem_iff] at ha he
  have at_end {a b : Int} (ha : t.Admissible a) (hq : Below q a b) : q ≤ floorQuotient t a b :=
    (le_floorQuotient_iff ha (by rcases hq with hq | hq <;> omega)).mpr hq
  have hcorner : q ≤ floorQuotient t n.lo d.lo ∨ q ≤ floorQuotient t n.lo d.hi ∨
      q ≤ floorQuotient t n.hi d.lo ∨ q ≤ floorQuotient t n.hi d.hi := by
    rcases h with ⟨hpos, h⟩ | ⟨hneg, h⟩
    · rcases hmid with hmid | hmid
      · exact .inr (.inr (.inl (at_end hn.hi (.inl ⟨by omega, by omega⟩))))
      · exact .inr (.inr (.inr (at_end hn.hi (.inl ⟨by omega, by omega⟩))))
    · rcases hmid with hmid | hmid
      · exact .inr (.inl (at_end hn.lo (.inr ⟨by omega, by omega⟩)))
      · exact .inl (at_end hn.lo (.inr ⟨by omega, by omega⟩))
  simp only [endsHull, hull]
  omega

theorem Above.lo_le (h : Above q a e) (hn : n.EndsIn t.Admissible)
    (hsign : 0 < d.lo ∨ d.hi < 0) (ha : a ∈ n) (he : e ∈ d) :
    (endsHull (ceilQuotient t) n d).lo ≤ q := by
  have hmid := mul_between he q
  simp only [Int.mul_comm _ q, Set.mem_uIcc] at hmid
  rw [mem_iff] at ha he
  have at_end {a b : Int} (ha : t.Admissible a) (hq : Above q a b) : ceilQuotient t a b ≤ q :=
    (ceilQuotient_le_iff ha (by rcases hq with hq | hq <;> omega)).mpr hq
  have hcorner : ceilQuotient t n.lo d.lo ≤ q ∨ ceilQuotient t n.lo d.hi ≤ q ∨
      ceilQuotient t n.hi d.lo ≤ q ∨ ceilQuotient t n.hi d.hi ≤ q := by
    rcases h with ⟨hpos, h⟩ | ⟨hneg, h⟩
    · rcases hmid with hmid | hmid
      · exact .inr (.inl (at_end hn.lo (.inl ⟨by omega, by omega⟩)))
      · exact .inl (at_end hn.lo (.inl ⟨by omega, by omega⟩))
    · rcases hmid with hmid | hmid
      · exact .inr (.inr (.inl (at_end hn.hi (.inr ⟨by omega, by omega⟩))))
      · exact .inr (.inr (.inr (at_end hn.hi (.inr ⟨by omega, by omega⟩))))
  simp only [endsHull, hull]
  omega

/-- The quotients by a divisor without zero hold every other factor. -/
theorem signedQuotients_sound (hn : n.EndsIn t.Admissible) (hsign : 0 < d.lo ∨ d.hi < 0)
    (he : e ∈ d) (hprod : q * e ∈ n) :
    ∃ r, signedQuotients t .factor n d = .ok r ∧ q ∈ r := by
  have hin := he
  rw [mem_iff] at hin
  have hbelow : Below q (q * e) e := by
    rw [Below]
    omega
  have habove : Above q (q * e) e := by
    rw [Above]
    omega
  have hlo := habove.lo_le hn hsign hprod he
  have hhi := hbelow.le_hi hn hsign hprod he
  exact ⟨_, signedQuotients_eq (Int.le_trans hlo hhi), hlo, hhi⟩

/-! ### All divisors -/

theorem div_across (hn : n.EndsIn t.Admissible) (hzero : 0 ∉ n) (hlo : d.lo < 0) (hhi : 0 < d.hi) :
    div t kind n d =
      .ok ⟨-max (n.lo.natAbs : Int) n.hi.natAbs, max (n.lo.natAbs : Int) n.hi.natAbs⟩ := by
  have hlomag := magnitude_le hn.lo
  have hhimag := magnitude_le hn.hi
  have hlofits : t.fits n.lo.natAbs = true := fits_of_magnitude ⟨by omega, by omega⟩
  have hhifits : t.fits n.hi.natAbs = true := fits_of_magnitude ⟨by omega, by omega⟩
  have hneg : t.fits (-(max (n.lo.natAbs : Int) n.hi.natAbs)) = true :=
    fits_of_magnitude ⟨by omega, by omega⟩
  have havoid : d.avoidsZero = false := by
    rw [← Bool.not_eq_true, avoidsZero_iff]
    omega
  have hends : ¬(d.lo = 0 ∧ d.hi = 0) := by omega
  simp only [div, hasZero_eq_false_iff.mpr hzero, havoid, Bool.false_and, Bool.false_eq_true,
    if_false, if_neg hends, if_pos (And.intro hlo hhi), ValueType.unchecked_eq hlofits,
    ValueType.unchecked_eq hhifits, ValueType.unchecked_eq hneg]

/-- The cases of a division. What a quotient is matters in the last of them only. -/
inductive Cases (t : ValueType) (n d : Interval) : Prop
  | whole : 0 ∈ n → 0 ∈ d → (∀ kind, div t kind n d = .ok (whole t)) → Cases t n d
  | byZero : 0 ∉ n → d = singleton 0 → (∀ kind, div t kind n d = .error .byZero) → Cases t n d
  | across : 0 ∉ n → d.lo < 0 → 0 < d.hi → (∀ kind, div t kind n d =
      .ok ⟨-max (n.lo.natAbs : Int) n.hi.natAbs, max (n.lo.natAbs : Int) n.hi.natAbs⟩) → Cases t n d
  | oneSided : (0 ∈ n → 0 ∉ d) → ¬(d.lo < 0 ∧ 0 < d.hi) → d ≠ singleton 0 →
      (∀ kind, div t kind n d = signedQuotients t kind n (nonzeroPart d)) → Cases t n d

theorem div_cases (hn : n.EndsIn t.Admissible) (hd : d.lo ≤ d.hi) : Cases t n d := by
  by_cases hboth : 0 ∈ n ∧ 0 ∈ d
  · exact .whole hboth.1 hboth.2 fun kind => div_whole hboth.1 hboth.2
  rw [not_and] at hboth
  by_cases hzero : d = singleton 0
  · subst hzero
    have hnzero : 0 ∉ n := fun hin => hboth hin (mem_singleton.mpr rfl)
    exact .byZero hnzero rfl fun kind => div_byZero hnzero
  by_cases hover : d.lo < 0 ∧ 0 < d.hi
  · have hnzero : 0 ∉ n := fun hin => hboth hin ⟨by omega, by omega⟩
    exact .across hnzero hover.1 hover.2 fun kind => div_across hn hnzero hover.1 hover.2
  · exact .oneSided hboth hover hzero fun kind => div_nonzeroPart hboth hd hover hzero

/-- The ways in which a division finds other factors. -/
inductive Factors (t : ValueType) (n d : Interval) : Except DivisionError Interval → Prop
  | whole : 0 ∈ n → 0 ∈ d → Factors t n d (.ok (whole t))
  | byZero : (0 ∈ n → 0 ∉ d) → d.lo = 0 → d.hi = 0 → Factors t n d (.error .byZero)
  | magnitude (m : Int) : 0 ∉ n → d.lo < 0 → 0 < d.hi → m = max (n.lo.natAbs : Int) n.hi.natAbs →
      Factors t n d (.ok ⟨-m, m⟩)
  /-- Of the divisors only the part on one side of zero counts. -/
  | signed (part : Interval) : (0 ∈ n → 0 ∉ d) → part.lo ≤ part.hi → 0 < part.lo ∨ part.hi < 0 →
      (∀ e, e ∈ part ↔ e ∈ d ∧ e ≠ 0) → Factors t n d (signedQuotients t .factor n part)

theorem div_factors (hn : n.EndsIn t.Admissible) (hd : d.lo ≤ d.hi) :
    Factors t n d (div t .factor n d) := by
  cases div_cases hn hd with
  | whole hnz hdz hdiv =>
    rw [hdiv]
    exact .whole hnz hdz
  | byZero hnz hzero hdiv =>
    obtain ⟨hlo, hhi⟩ := eq_singleton_iff.mp hzero
    rw [hdiv]
    exact .byZero (fun hin => absurd hin hnz) hlo hhi
  | across hnz hlo hhi hdiv =>
    rw [hdiv]
    exact .magnitude _ hnz hlo hhi rfl
  | oneSided hboth hover hzero hdiv =>
    obtain ⟨hle, hsign⟩ := nonzeroPart_sign hd hover hzero
    rw [hdiv]
    exact .signed _ hboth hle hsign fun e => mem_nonzeroPart hover

theorem natAbs_le_of_mul (hprod : q * e ∈ n) (hzero : 0 ∉ n) :
    (q.natAbs : Int) ≤ max n.lo.natAbs n.hi.natAbs := by
  have hne : e ≠ 0 := by
    rintro rfl
    rw [Int.mul_zero] at hprod
    exact hzero hprod
  have hmul : q.natAbs * 1 ≤ q.natAbs * e.natAbs :=
    Nat.mul_le_mul_left _ (Int.natAbs_pos.mpr hne)
  rw [← Int.natAbs_mul] at hmul
  rw [mem_iff] at hprod hzero
  omega

/-- Division finds every value that is the other factor of a product. Only where zero is a product
and a divisor can it be any value, and has to lie in the universe to be found. -/
theorem div_factor_sound (hn : n.EndsIn t.Admissible) (hq : 0 ∈ n → 0 ∈ d → t.Admissible q)
    (he : e ∈ d) (hprod : q * e ∈ n) : ∃ r, div t .factor n d = .ok r ∧ q ∈ r := by
  have hcases := div_factors hn (Int.le_trans he.1 he.2)
  have hne : (0 ∈ n → 0 ∉ d) → e ≠ 0 := by
    rintro hnot rfl
    rw [Int.mul_zero] at hprod
    exact hnot hprod he
  generalize div t .factor n d = quotients at hcases
  cases hcases with
  | whole hnz hdz => exact ⟨_, rfl, hq hnz hdz⟩
  | byZero hnot hlo hhi =>
    have hzero := hne hnot
    rw [mem_iff] at he
    omega
  | magnitude m hzero _ _ hm =>
    have hmag := natAbs_le_of_mul hprod hzero
    refine ⟨_, rfl, ?_⟩
    rw [mem_mk]
    omega
  | signed part hnot _ hsign hpart =>
    exact signedQuotients_sound hn hsign ((hpart e).mpr ⟨he, hne hnot⟩) hprod

theorem div_eq_byZero_iff (hn : n.EndsIn t.Admissible) (hd : d.lo ≤ d.hi) :
    div t kind n d = .error .byZero ↔ d = singleton 0 ∧ 0 ∉ n := by
  cases div_cases hn hd with
  | whole hnz _ hdiv =>
    rw [hdiv]
    exact iff_of_false nofun fun h => h.2 hnz
  | byZero hnz hzero hdiv =>
    rw [hdiv]
    exact iff_of_true rfl ⟨hzero, hnz⟩
  | across _ hlo _ hdiv =>
    rw [hdiv, eq_singleton_iff]
    exact iff_of_false nofun fun h => absurd h.1.1 (Int.ne_of_lt hlo)
  | oneSided _ _ hzero hdiv =>
    rw [hdiv]
    exact iff_of_false signedQuotients_ne_byZero fun h => hzero h.1

/-- Division finds every other factor of the universe. Where it fails there is none of any size, and
it fails as a division by zero exactly if zero is the only divisor and is not a product. -/
theorem factors_found_or_missing (hn : n.EndsIn t.Admissible) (hd : d.lo ≤ d.hi) :
    (∀ q, t.Admissible q → ∀ e ∈ d, q * e ∈ n → ∃ r, div t .factor n d = .ok r ∧ q ∈ r) ∧
      (∀ error, div t .factor n d = .error error → ∀ q, ∀ e ∈ d, q * e ∉ n) ∧
      (div t .factor n d = .error .byZero ↔ d = singleton 0 ∧ 0 ∉ n) ∧
      (n.lo ≤ n.hi → checkedDiv t .factor n d = .ok (div t .factor n d)) := by
  refine ⟨fun q hq e he hprod => div_factor_sound hn (fun _ _ => hq) he hprod, ?_,
    div_eq_byZero_iff hn hd, fun hle => checkedDiv_eq (hn.sturdy hle) hd⟩
  intro error herror q e he hprod
  have hboth (hnz : 0 ∈ n) (hdz : 0 ∈ d) : t.Admissible q := by
    rw [div_whole hnz hdz] at herror
    cases herror
  obtain ⟨r, hr, -⟩ := div_factor_sound hn hboth he hprod
  rw [herror] at hr
  cases hr

/-- With zero as an end of the divisors, with no exact quotient, and by zero. -/
theorem factors_found_or_missing_touching :
    let n : Interval := ⟨5, 9⟩
    let d : Interval := ⟨0, 2⟩
    n.EndsIn ValueType.int32.Admissible ∧ d.lo ≤ d.hi ∧
      div .int32 .factor n d = .ok ⟨3, 9⟩ ∧ (∃ r, div .int32 .factor n d = .ok r ∧ 4 ∈ r) ∧
      div .int32 .factor (singleton 5) (singleton 2) = .error .noQuotient ∧
      (∀ q, ∀ e ∈ singleton 2, q * e ∉ singleton 5) ∧
      div .int32 .factor n (singleton 0) = .error .byZero ∧
      checkedDiv .int32 .factor n d = .ok (div .int32 .factor n d) := by
  intro n d
  have hn : n.EndsIn ValueType.int32.Admissible := ⟨by decide, by decide⟩
  have hfive : (singleton 5).EndsIn ValueType.int32.Admissible := ⟨by decide, by decide⟩
  have hexact : div .int32 .factor (singleton 5) (singleton 2) = .error .noQuotient := by decide
  have hd : d.lo ≤ d.hi := by decide
  refine ⟨hn, hd, by decide, ?_, hexact, ?_, ?_, ?_⟩
  · exact (factors_found_or_missing hn hd).1 4 (by decide) 2 ⟨by decide, by decide⟩
      ⟨by decide, by decide⟩
  · exact (factors_found_or_missing hfive (Int.le_refl 2)).2.1 _ hexact
  · have hnz : 0 ∉ n := fun hmem => absurd hmem.1 (by decide)
    exact (factors_found_or_missing hn (Int.le_refl 0)).2.2.1.mpr ⟨rfl, hnz⟩
  · exact (factors_found_or_missing hn hd).2.2.2 (by decide)

end FiniteDomains.Interval
