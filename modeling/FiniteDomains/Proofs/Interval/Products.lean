import FiniteDomains.Proofs.Interval.Monotone

/-! Products and squares are exact up to the universe. The interval computed starts at the least of
the exact results and ends at the greatest one, both clamped, for operands of any size. -/
namespace FiniteDomains.Interval
variable {t : ValueType} {x y r r' : Interval} {s s' : Set Int} {a b : Int}

def products (x y : Interval) : Set Int := {p | ∃ a ∈ x, ∃ b ∈ y, a * b = p}

def squares (x : Interval) : Set Int := {p | ∃ a ∈ x, a * a = p}

theorem mul_mem_products (ha : a ∈ x) (hb : b ∈ y) : a * b ∈ products x y := ⟨a, ha, b, hb, rfl⟩

theorem mul_self_mem_squares (ha : a ∈ x) : a * a ∈ squares x := ⟨a, ha, rfl⟩

theorem squares_subset : squares x ⊆ products x x := by
  rintro _ ⟨a, ha, rfl⟩
  exact mul_mem_products ha ha

theorem hull_spans_products (hx : x.lo ≤ x.hi) (hy : y.lo ≤ y.hi) :
    (endsHull (· * ·) x y).Spans (products x y) := by
  obtain ⟨⟨a, ha, b, hb, hlo⟩, c, hc, e, he, hhi⟩ := endsHull_attained (· * ·) hx hy
  refine .of_ends (hlo ▸ mul_mem_products ha hb) (hhi ▸ mul_mem_products hc he) ?_
  rintro _ ⟨a, ha, b, hb, rfl⟩
  exact mul_mem_hull ha hb

theorem squareEnds_spans (hx : x.lo ≤ x.hi) : (squareEnds x).Spans (squares x) := by
  obtain ⟨⟨a, ha, hlo⟩, b, hb, hhi⟩ := squareEnds_attained hx
  refine .of_ends (hlo ▸ mul_self_mem_squares ha) (hhi ▸ mul_self_mem_squares hb) ?_
  rintro _ ⟨a, ha, rfl⟩
  exact square_mem_squareEnds ha

theorem Inside.clamped (h : r.Inside r') (t : ValueType) : (r.clamped t).Inside (r'.clamped t) :=
  ⟨ValueType.clamp_le_clamp h.le, ValueType.clamp_le_clamp h.lo_le,
    ValueType.clamp_le_clamp h.le_hi⟩

variable [t.Lawful]

/-- Products run from the least exact product to the greatest one and squares from the least exact
square to the greatest one, with both ends clamped; so squares lie within products. -/
theorem products_exact (hx : x.lo ≤ x.hi) (hy : y.lo ≤ y.hi) :
    (∃ r : Interval, r.Spans (products x y) ∧ mul t x y = r.clamped t) ∧
      (∃ r : Interval, r.Spans (squares x) ∧ square t x = r.clamped t) ∧
      (square t x).Inside (mul t x x) ∧
      checkedMul t x y = .ok (mul t x y) ∧ checkedSquare t x = .ok (square t x) := by
  refine ⟨⟨_, hull_spans_products hx hy, mul_eq_clamped x y⟩,
    ⟨_, squareEnds_spans hx, square_eq_clamped x⟩, ?_, checkedMul_eq x y, checkedSquare_eq x⟩
  have hinside := (squareEnds_spans hx).inside (hull_spans_products hx hx) squares_subset
  rw [square_eq_clamped, mul_eq_clamped]
  exact hinside.clamped t

/-- With products that do not fit into the word and an operand beyond the universe. -/
theorem products_exact_overflow :
    let x : Interval := ⟨-70000, 3⟩
    let y : Interval := ⟨-5, 1000000000⟩
    x.lo ≤ x.hi ∧ y.lo ≤ y.hi ∧ ValueType.int32.fits y.hi = true ∧
      ¬ValueType.int32.Admissible y.hi ∧ ValueType.int32.fits (x.lo * y.hi) = false ∧
      mul .int32 x y = whole .int32 ∧ square .int32 x = ⟨0, 536870909⟩ ∧
      (∃ r : Interval, r.Spans (products x y) ∧ whole .int32 = r.clamped .int32) ∧
      (∃ r : Interval, r.Spans (squares x) ∧ (⟨0, 536870909⟩ : Interval) = r.clamped .int32) ∧
      Inside ⟨0, 536870909⟩ (mul .int32 x x) ∧ checkedMul .int32 x y = .ok (whole .int32) ∧
      checkedSquare .int32 x = .ok ⟨0, 536870909⟩ := by
  intro x y
  have hmul : mul .int32 x y = whole .int32 := by decide
  have hsquare : square .int32 x = ⟨0, 536870909⟩ := by decide
  obtain ⟨hproducts, hsquares, hinside, hchecked, hchecked'⟩ :=
    products_exact (t := .int32) (by decide : x.lo ≤ x.hi) (by decide : y.lo ≤ y.hi)
  rw [hmul] at hproducts hchecked
  rw [hsquare] at hsquares hinside hchecked'
  exact ⟨by decide, by decide, by decide, by decide, by decide, hmul, hsquare, hproducts, hsquares,
    hinside, hchecked, hchecked'⟩

end FiniteDomains.Interval
