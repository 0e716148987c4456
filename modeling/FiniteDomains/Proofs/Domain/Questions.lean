import FiniteDomains.Domain.Order
import FiniteDomains.Proofs.Domain.Algebra

/-! The questions about domains are answered as for the sets of their values, in any pair of
representations. Counts stop at a limit, but a list has less values than that, and two sizes that
stop there are only compared before all values are. -/
namespace FiniteDomains
variable {t : ValueType}

namespace Runs
variable [t.Lawful] {rs : List Interval}

theorem size_eq_min (h : Consistent rs)
    (hfits : ∀ v ∈ covered rs, ∀ w ∈ covered rs, v ≤ w → t.fits (w - v + 1) = true) :
    size t rs = min countLimit (cardinality rs) := by
  rw [size]
  induction rs with
  | nil => rfl
  | cons r rs ih =>
    have hrest := ih h.tail fun v hv w hw => hfits v (mem_covered_cons.mpr (.inr hv)) w
      (mem_covered_cons.mpr (.inr hw))
    have hone : t.fits (r.hi - r.lo + 1) = true :=
      hfits _ (mem_covered_cons.mpr (.inl ⟨Int.le_refl _, h.1⟩)) _
        (mem_covered_cons.mpr (.inl ⟨h.1, Int.le_refl _⟩)) h.1
    have hsize : r.size t = min countLimit (r.hi + 1 - r.lo).toNat :=
      ValueType.count_eq_min h.1 hone
    have hcard : cardinality (r :: rs) = (r.hi + 1 - r.lo).toNat + cardinality rs := rfl
    rw [List.foldr_cons, hsize, hcard]
    omega

end Runs

namespace Points
variable {vs : List Int} {lo hi : Int}

theorem coversRange_iff [t.Lawful] (h : Consistent vs) (hfew : vs.length < countLimit)
    (hle : lo ≤ hi) (hfits : t.fits (hi - lo + 1) = true) :
    coversRange t lo hi vs = true ↔ ∀ v, lo ≤ v → v ≤ hi → v ∈ vs := by
  -- A list with less values than the counts can tell stores all of a range if it stores as many.
  have hmem (v : Int) : v ∈ restrict lo hi vs ↔ v ∈ vs ∧ lo ≤ v ∧ v ≤ hi := mem_restrict h
  have hsub : (restrict lo hi vs).toFinset ⊆ (⟨lo, hi⟩ : Interval).toFinset := by
    intro v hv
    rw [List.mem_toFinset, hmem] at hv
    exact Interval.mem_toFinset.mpr hv.2
  have hcard : (restrict lo hi vs).toFinset.card = (restrict lo hi vs).length :=
    h.restrict.card_toFinset
  have hall : (⟨lo, hi⟩ : Interval).toFinset.card = (hi + 1 - lo).toNat :=
    Interval.card_toFinset ⟨lo, hi⟩
  have hstored := (restrict_sublist lo hi vs).length_le
  rw [coversRange, decide_eq_true_eq, ValueType.count_eq_min hle hfits]
  constructor
  · intro hcount v hlov hvhi
    have heq := Finset.eq_of_subset_of_card_le hsub (by omega)
    have hv : v ∈ (restrict lo hi vs).toFinset := heq ▸ Interval.mem_toFinset.mpr ⟨hlov, hvhi⟩
    exact ((hmem v).mp (List.mem_toFinset.mp hv)).1
  · intro hcovers
    have hsup : (⟨lo, hi⟩ : Interval).toFinset ⊆ (restrict lo hi vs).toFinset := by
      intro v hv
      obtain ⟨hlov, hvhi⟩ := Interval.mem_toFinset.mp hv
      exact List.mem_toFinset.mpr ((hmem v).mpr ⟨hcovers v hlov hvhi, hlov, hvhi⟩)
    have hle := Finset.card_le_card hsub
    have hge := Finset.card_le_card hsup
    omega

end Points

namespace Domain
variable {d e : Domain t} {lo hi : Int}

/-! ### Empty intersections -/

theorem insertRange_isEmpty (d : Domain t) (lo hi : Int) :
    (d.insertRange lo hi).isEmpty = false := by
  cases d with
  | intervals rs => simp [insertRange, isEmpty, Runs.insert]
  | sparse vs =>
    have hsome : t.ascending lo (hi - lo).toNat ≠ [] := by
      rw [← List.length_pos_iff_ne_nil, ValueType.length_ascending]
      omega
    simp [insertRange, isEmpty, Points.insert, hsome]

theorem union_isEmpty (d e : Domain t) : (d.union e).isEmpty = (d.isEmpty && e.isEmpty) := by
  have hranges (rs : List Interval) (d : Domain t) :
      (rs.foldl (fun d r => d.insertRange r.lo r.hi) d).isEmpty = (d.isEmpty && rs.isEmpty) := by
    induction rs generalizing d with
    | nil => simp
    | cons r rs ih => simp [ih, insertRange_isEmpty]
  rw [union, hranges]
  cases e <;> simp [operandRanges, isEmpty]

theorem restrict_isEmpty (h : d.Consistent) (lo hi : Int) :
    (d.restrict lo hi).isEmpty = !d.meetsRange lo hi := by
  rw [Bool.eq_iff_iff, isEmpty_iff (restrict_consistent h lo hi), Bool.not_eq_true',
    ← Bool.not_eq_true, meetsRange_iff h]
  simp only [mem_restrict h, not_exists, not_and]

theorem inter_isEmpty (h : d.Consistent) (e : Domain t) : (d.inter e).isEmpty = !d.meets e := by
  -- What is added leaves no domain empty, so that an intersection is empty only if no part of the
  -- first domain is found in the second, even where its parts are out of room.
  have hparts (rs : List Interval) (u : Domain t) :
      (rs.foldl (fun result r => result.union (d.restrict r.lo r.hi)) u).isEmpty =
        (u.isEmpty && !rs.any fun r => d.meetsRange r.lo r.hi) := by
    induction rs generalizing u with
    | nil => simp
    | cons r rs ih => simp [ih, union_isEmpty, restrict_isEmpty h, Bool.and_assoc]
  have hcleared : d.cleared.isEmpty = true := by cases d <;> rfl
  rw [inter, meets]
  split
  · have hmade (vs : List Int) : (ofValues vs : Domain t).isEmpty = vs.isEmpty := by
      have hmem (v : Int) : v ∈ Points.ofList vs ↔ v ∈ vs := Points.mem_ofList
      rw [ofValues, isEmpty, Bool.eq_iff_iff, List.isEmpty_iff, List.isEmpty_iff,
        List.eq_nil_iff_forall_not_mem, List.eq_nil_iff_forall_not_mem]
      simp only [hmem]
    rw [hmade, Bool.eq_iff_iff]
    simp [List.filter_eq_nil_iff]
  · exact (hparts e.operandRanges d.cleared).trans (by rw [hcleared, Bool.true_and])

/-! ### Sizes and sets -/

/-- A valid domain of values whose distances fit. If it is sparse it has less values than the limit
of counts. -/
structure Sized (d : Domain t) : Prop extends d.Valid where
  distance : ∀ v ∈ d, ∀ w ∈ d, v ≤ w → t.fits (w - v + 1) = true
  few : d.isSparse = true → d.cardinality < countLimit

theorem Sized.of_integer {d : Domain .integer} (h : d.Consistent)
    (hfew : d.isSparse = true → d.cardinality < countLimit) : d.Sized :=
  ⟨⟨h, fun _ _ => rfl⟩, fun _ _ _ _ _ => rfl, hfew⟩

variable [t.Lawful]

theorem Sized.of_inUniverse (h : d.Consistent) (hu : d.InUniverse)
    (hfew : d.isSparse = true → d.cardinality < countLimit) : d.Sized := by
  refine ⟨hu.valid h, fun v hv w hw hle => ?_, hfew⟩
  have hmin := ValueType.Lawful.min_eq (t := t)
  obtain ⟨hvlo, hvhi⟩ := hu v hv
  obtain ⟨hwlo, hwhi⟩ := hu w hw
  exact ValueType.Lawful.fits_near _ (by omega) (by omega)

theorem Sized.coversRange_iff (h : d.Sized) (hle : lo ≤ hi)
    (hfits : d.isSparse = true → t.fits (hi - lo + 1) = true) :
    d.coversRange lo hi = true ↔ ∀ v, lo ≤ v → v ≤ hi → v ∈ d := by
  rw [coversRange.eq_def, decide_eq_true hle, Bool.true_and]
  cases d with
  | intervals rs => exact Runs.coversRange_iff h.consistent hle
  | sparse vs => exact Points.coversRange_iff h.consistent (h.few rfl) hle (hfits rfl)

theorem Sized.size_eq (h : d.Sized) : d.size = min countLimit d.cardinality := by
  cases d with
  | intervals rs => exact Runs.size_eq_min h.consistent h.distance
  | sparse vs => exact (Nat.min_eq_right (Nat.le_of_lt (h.few rfl))).symm

theorem Sized.includes_iff (h : d.Sized) (he : e.Sized) :
    d.includes e = true ↔ ∀ v ∈ e, v ∈ d := by
  have hrange (r : Interval) (hr : r ∈ e.operandRanges) :
      d.coversRange r.lo r.hi = true ↔ ∀ v ∈ r, v ∈ d := by
    have hle := operandRanges_le he.consistent hr
    have hin (v : Int) (hv : v ∈ r) : v ∈ e := (covered_operandRanges e).mp ⟨r, hr, hv⟩
    rw [h.coversRange_iff hle fun _ =>
      he.distance _ (hin _ ⟨Int.le_refl _, hle⟩) _ (hin _ ⟨hle, Int.le_refl _⟩) hle]
    exact forall_congr' fun v => and_imp.symm
  rw [includes, List.all_eq_true]
  constructor
  · intro hall v hv
    obtain ⟨r, hr, hvr⟩ := (covered_operandRanges e).mpr hv
    exact (hrange r hr).mp (hall r hr) v hvr
  · intro hsub r hr
    exact (hrange r hr).mpr fun v hv => hsub v ((covered_operandRanges e).mp ⟨r, hr, hv⟩)

theorem meets_iff (h : d.Consistent) (he : e.Consistent) : d.meets e = true ↔ ∃ v ∈ d, v ∈ e := by
  have hranges : (e.operandRanges.any fun r => d.meetsRange r.lo r.hi) = true ↔
      ∃ v ∈ d, v ∈ e := by
    rw [List.any_eq_true]
    constructor
    · rintro ⟨r, hr, hmeets⟩
      obtain ⟨v, hv, hvr⟩ := (meetsRange_iff h).mp hmeets
      exact ⟨v, hv, (covered_operandRanges e).mp ⟨r, hr, hvr⟩⟩
    · rintro ⟨v, hv, hve⟩
      obtain ⟨r, hr, hvr⟩ := (covered_operandRanges e).mpr hve
      exact ⟨r, hr, (meetsRange_iff h).mpr ⟨v, hv, hvr⟩⟩
  rw [meets]
  cases d with
  | intervals rs => exact hranges
  | sparse vs =>
    -- listed values are only looked for in intervals
    have hlisted : vs.any e.contains = true ↔ ∃ v ∈ vs, v ∈ e := by
      rw [List.any_eq_true]
      exact exists_congr fun v => and_congr_right fun _ => contains_iff he
    cases e with
    | intervals qs => exact hlisted
    | sparse ws => exact hranges

theorem Sized.sameValues_iff (h : d.Sized) (he : e.Sized) :
    d.sameValues e = true ↔ ∀ v, v ∈ d ↔ v ∈ e := by
  have hsize (hsame : ∀ v, v ∈ d ↔ v ∈ e) : d.size = e.size := by
    have hsets : d.toFinset = e.toFinset := by
      ext v
      rw [mem_toFinset, mem_toFinset, hsame]
    rw [h.size_eq, he.size_eq, ← card_toFinset h.consistent, ← card_toFinset he.consistent, hsets]
  simp only [sameValues, Bool.and_eq_true, decide_eq_true_eq, h.includes_iff he, he.includes_iff h]
  constructor
  · rintro ⟨⟨-, hsub⟩, hsup⟩ v
    exact ⟨hsup v, hsub v⟩
  · intro hsame
    exact ⟨⟨hsize hsame, fun v => (hsame v).mpr⟩, fun v => (hsame v).mp⟩

/-- All questions about ranges and pairs of domains are about the values alone. -/
theorem questions_decide (hd : d.Sized) (he : e.Sized) :
    (∀ lo hi, lo ≤ hi → (d.isSparse = true → t.fits (hi - lo + 1) = true) →
      (d.coversRange lo hi = true ↔ ∀ v, lo ≤ v → v ≤ hi → v ∈ d)) ∧
      (∀ lo hi, lo ≤ hi → (d.meetsRange lo hi = true ↔ ∃ v ∈ d, lo ≤ v ∧ v ≤ hi)) ∧
      (d.includes e = true ↔ ∀ v ∈ e, v ∈ d) ∧
      (d.meets e = true ↔ ∃ v ∈ d, v ∈ e) ∧ d.meets e = e.meets d ∧
      (d.meets e = true ↔ (d.inter e).isEmpty = false) ∧
      (d.sameValues e = true ↔ ∀ v, v ∈ d ↔ v ∈ e) := by
  have hmeets := meets_iff hd.consistent he.consistent
  have hmeets' := meets_iff he.consistent hd.consistent
  refine ⟨fun lo hi hle => hd.coversRange_iff hle, fun lo hi _ => meetsRange_iff hd.consistent,
    hd.includes_iff he, hmeets, ?_, ?_, hd.sameValues_iff he⟩
  · rw [Bool.eq_iff_iff, hmeets, hmeets']
    simp only [and_comm]
  · rw [inter_isEmpty hd.consistent, Bool.not_eq_false']

/-- Two domains of different values with sizes beyond the limit and a sparse one, then a sparse
domain of the ends of the universe of 32 bits. -/
theorem questions_decide_saturated :
    (let d : Domain .integer := .intervals [⟨0, 2 ^ 70⟩, ⟨2 ^ 70 + 2, 2 ^ 71⟩]
      let e : Domain .integer := .intervals [⟨0, 2 ^ 71⟩]
      let u : Domain .integer := .sparse [0, 5, 2 ^ 70 + 1]
      d.Sized ∧ e.Sized ∧ u.Sized ∧ d.size = e.size ∧ ¬(∀ v, v ∈ d ↔ v ∈ e) ∧ (∀ v ∈ d, v ∈ e) ∧
        (∀ v ∈ u, v ∈ e) ∧ ¬(∀ v ∈ u, v ∈ d) ∧ (∃ v ∈ u, v ∈ d) ∧ (u.inter d).isEmpty = false) ∧
      let ends : Domain .int32 := .sparse [-536870910, 536870909]
      let whole : Domain .int32 := .intervals [⟨-536870910, 536870909⟩]
      ends.Sized ∧ whole.Sized ∧ (∀ v ∈ ends, v ∈ whole) ∧
        ¬∀ v, -536870910 ≤ v → v ≤ 536870909 → v ∈ ends := by
  constructor
  · intro d e u
    have hd : d.Sized := .of_integer (by decide +kernel) nofun
    have he : e.Sized := .of_integer (by decide +kernel) nofun
    have hu : u.Sized := .of_integer (by decide +kernel) fun _ => by decide +kernel
    obtain ⟨-, -, -, -, -, -, hsame⟩ := questions_decide hd he
    obtain ⟨-, -, hsub, -⟩ := questions_decide he hd
    obtain ⟨-, -, hlisted, -⟩ := questions_decide he hu
    obtain ⟨-, -, hmissing, -⟩ := questions_decide hd hu
    obtain ⟨-, -, -, hmeets, -, hinter, -⟩ := questions_decide hu hd
    have hcommon : u.meets d = true := by decide +kernel
    refine ⟨hd, he, hu, by decide +kernel, ?_, hsub.mp (by decide +kernel),
      hlisted.mp (by decide +kernel), ?_, hmeets.mp hcommon, hinter.mp hcommon⟩
    · rw [← hsame]
      decide +kernel
    · rw [← hmissing]
      decide +kernel
  · intro ends whole
    have hends : ends.Sized := .of_inUniverse (by decide) (by decide) fun _ => by decide
    have hwhole : whole.Sized := .of_inUniverse (by decide) (by decide) nofun
    obtain ⟨-, -, hsub, -⟩ := questions_decide hwhole hends
    obtain ⟨hcovers, -⟩ := questions_decide hends hwhole
    refine ⟨hends, hwhole, hsub.mp (by decide), ?_⟩
    rw [← hcovers _ _ (by decide) fun _ => by decide]
    decide

end Domain
end FiniteDomains
