import FiniteDomains.Proofs.Domain.Enumeration

/-! Values by their index. The walk over intervals takes the sizes of those it passes from the
index, and sizes stop at the limit of counts. So every index up to that limit finds the value that
the enumeration gives there, but for the limit itself if the first interval goes on behind it. -/
namespace FiniteDomains
variable {t : ValueType}

namespace Runs
variable {r : Interval} {rs : List Interval} {index : Nat}

theorem getElem?_values_of_le (hfit : ∀ v ∈ r, t.fits v = true) (hin : r.lo + index ≤ r.hi) :
    (values t (r :: rs))[index]? = some (r.lo + index) := by
  have hle : r.lo ≤ r.hi := by omega
  rw [values_cons, List.getElem?_append_left (by rw [Interval.length_values hle]; omega),
    Interval.values_eq hle,
    ValueType.getElem?_ascending (fun w hlo hhi => hfit w ⟨by omega, by omega⟩) (by omega)]

theorem getElem?_values_of_lt (hle : r.lo ≤ r.hi) (hout : r.hi < r.lo + index) :
    (values t (r :: rs))[index]? = (values t rs)[index - (r.hi + 1 - r.lo).toNat]? := by
  have hlength := Interval.length_values (t := t) hle
  rw [values_cons, List.getElem?_append_right (by omega), hlength]

variable [t.Lawful]

theorem get?_of_le (hfit : ∀ v ∈ r, t.fits v = true) (hroom : t.fits (r.hi - r.lo + 1) = true)
    (hin : r.lo + index ≤ r.hi) (hlimit : index < countLimit) :
    get? t (r :: rs) index = some (r.lo + index) := by
  have hmax := ValueType.Lawful.one_le_max (t := t)
  have hsize : r.size t = min countLimit (r.hi + 1 - r.lo).toNat :=
    ValueType.count_eq_min (by omega) hroom
  have hplaces : t.fits index = true :=
    ValueType.Lawful.fits_between 0 (r.hi - r.lo + 1) _
      (ValueType.Lawful.fits_near 0 (by omega) (by omega)) hroom (by omega) (by omega)
  have hvalue : t.fits (r.lo + index) = true := hfit _ ⟨by omega, hin⟩
  rw [get?, if_pos (by omega), ValueType.offset, if_pos hplaces, ValueType.unchecked_eq hvalue]

/-- Up to the limit the walk finds what the enumeration gives, if it does not have to leave the
first interval for the limit too early. -/
theorem get?_eq (h : Consistent rs) (hfit : ∀ v ∈ covered rs, t.fits v = true)
    (hroom : ∀ r ∈ rs, t.fits (r.hi - r.lo + 1) = true) (hindex : index ≤ countLimit)
    (hfirst : index = countLimit → ∀ r ∈ rs.head?, r.hi < r.lo + countLimit) :
    get? t rs index = (values t rs)[index]? := by
  induction rs generalizing index with
  | nil => simp [get?, values]
  | cons r rs ih =>
    have hle := h.1
    obtain ⟨hone, hrest⟩ := List.forall_mem_cons.mp hroom
    have hfitr : ∀ v ∈ r, t.fits v = true := fun v hv => hfit v (mem_covered_cons.mpr (.inl hv))
    by_cases hin : r.lo + index ≤ r.hi
    · have hlimit : index < countLimit := by
        by_contra hge
        have hend := hfirst (by omega) r rfl
        omega
      rw [get?_of_le hfitr hone hin hlimit, getElem?_values_of_le hfitr hin]
    · -- All of the interval is passed, so its size has not stopped at the limit.
      have hsize : r.size t = (r.hi + 1 - r.lo).toNat := by
        rw [Interval.size, ValueType.count_eq_min hle hone]
        omega
      rw [get?, if_neg (by omega), hsize, getElem?_values_of_lt hle (by omega)]
      exact ih h.tail (fun v hv => hfit v (mem_covered_cons.mpr (.inr hv))) hrest (by omega)
        (by omega)

/-- At the limit the walk leaves a first interval that goes on behind it. -/
theorem get?_limit (h : Consistent (r :: rs)) (hfit : ∀ v ∈ covered rs, t.fits v = true)
    (hroom : ∀ q ∈ r :: rs, t.fits (q.hi - q.lo + 1) = true) (hlong : r.lo + countLimit ≤ r.hi) :
    get? t (r :: rs) countLimit = min? rs := by
  obtain ⟨hone, hrest⟩ := List.forall_mem_cons.mp hroom
  have hsize : r.size t = countLimit := by
    rw [Interval.size, ValueType.count_eq_min h.1 hone]
    omega
  rw [get?, hsize, if_neg (Nat.lt_irrefl _), Nat.sub_self]
  cases rs with
  | nil => rfl
  | cons q qs =>
    have hfitq : ∀ v ∈ q, t.fits v = true := fun v hv => hfit v (mem_covered_cons.mpr (.inl hv))
    have hle : q.lo + (0 : Nat) ≤ q.hi := by
      have hle := h.tail.1
      omega
    rw [get?_of_le hfitq (hrest q List.mem_cons_self) hle (by decide)]
    simp [min?]

end Runs

namespace Domain
variable {d : Domain t} {index : Nat}

/-- The first interval has more values than counts go. -/
def Clipped : Domain t → Prop
  | .intervals rs => ∃ r ∈ rs.head?, r.lo + countLimit ≤ r.hi
  | .sparse _ => False

theorem Sized.room {rs : List Interval} (h : (.intervals rs : Domain t).Sized) :
    ∀ r ∈ rs, t.fits (r.hi - r.lo + 1) = true := by
  intro r hr
  have hle : r.lo ≤ r.hi := Runs.Consistent.le h.consistent hr
  exact h.distance r.lo ⟨r, hr, Int.le_refl _, hle⟩ r.hi ⟨r, hr, hle, Int.le_refl _⟩ hle

variable [t.Lawful]

theorem Sized.get?_eq (h : d.Sized) (hindex : index ≤ countLimit)
    (hclear : ¬(index = countLimit ∧ d.Clipped)) : d.get? index = d.values[index]? := by
  cases d with
  | intervals rs =>
    refine Runs.get?_eq h.consistent h.fits h.room hindex fun hlimit r hr => ?_
    by_contra hge
    exact hclear ⟨hlimit, r, hr, by omega⟩
  | sparse vs => rfl

theorem Sized.get?_clipped (h : d.Sized) (hclipped : d.Clipped) :
    d.get? countLimit = d.runs[1]?.map Interval.lo ∧
      d.get? countLimit ≠ d.values[countLimit]? := by
  cases d with
  | intervals rs =>
    obtain ⟨r, hr, hlong⟩ := hclipped
    cases rs with
    | nil => cases hr
    | cons q qs =>
      cases hr
      have hcons : Runs.Consistent (r :: qs) := h.consistent
      have hfit : ∀ v ∈ Runs.covered (r :: qs), t.fits v = true := h.fits
      have hget := Runs.get?_limit hcons (fun v hv => hfit v (Runs.mem_covered_cons.mpr (.inr hv)))
        h.room hlong
      refine ⟨?_, ?_⟩
      · rw [runs, List.getElem?_cons_succ, ← List.head?_eq_getElem?]
        exact hget
      · -- the value looked for is in the first interval, and the one found in the second
        have hvalue : (Runs.values t (r :: qs))[countLimit]? = some (r.lo + countLimit) :=
          Runs.getElem?_values_of_le
            (fun v hv => hfit v (Runs.mem_covered_cons.mpr (.inl hv))) hlong
        intro heq
        have hfound : Runs.min? qs = some (r.lo + countLimit) :=
          hget.symm.trans (heq.trans hvalue)
        have hfar := hcons.far_covered (Runs.min?_isLeast hcons.tail hfound).1
        omega
  | sparse vs => exact hclipped.elim

/-- An index that counts can tell finds the value that the enumeration gives there, and none exactly
if the domain has no more values, except for the limit of counts in a domain of which the first
interval is longer: there the first value of the second interval is found. -/
theorem indexing_exact_iff (h : d.Sized) (hindex : index ≤ countLimit) :
    (d.get? index = d.values[index]? ↔ ¬(index = countLimit ∧ d.Clipped)) ∧
      (d.get? index = d.values[index]? → (d.get? index = none ↔ d.cardinality ≤ index)) ∧
      (d.Clipped → d.get? countLimit = d.runs[1]?.map Interval.lo) := by
  refine ⟨⟨?_, h.get?_eq hindex⟩, fun heq => ?_, fun hclipped => (h.get?_clipped hclipped).1⟩
  · rintro heq ⟨rfl, hclipped⟩
    exact (h.get?_clipped hclipped).2 heq
  · rw [heq, List.getElem?_eq_none_iff, h.length_values]

/-- The greatest of `2 ^ 64` values is not found. -/
theorem indexing_misses_value :
    let d : Domain .integer := .intervals [⟨0, 2 ^ 64 - 1⟩]
    d.Sized ∧ countLimit < d.cardinality ∧ d.values[countLimit]? = some (2 ^ 64 - 1) ∧
      d.get? countLimit = none := by
  intro d
  refine ⟨.of_integer (by decide +kernel) nofun, by decide +kernel, ?_, by decide +kernel⟩
  exact Runs.getElem?_values_of_le (fun _ _ => rfl) (by decide)

/-- Indexes at the ends of intervals, and the limit of counts within an interval longer than
that. -/
theorem indexing_exact_iff_borders :
    let d : Domain .int32 := .intervals [⟨1, 2⟩, ⟨10, 12⟩]
    let e : Domain .integer := .intervals [⟨-2, -2⟩, ⟨0, 2 ^ 70⟩]
    d.Sized ∧ d.get? 2 = d.values[2]? ∧ d.get? 2 = some 10 ∧
      (d.get? 5 = none ↔ d.cardinality ≤ 5) ∧ d.cardinality = 5 ∧
      e.Sized ∧ e.get? countLimit = e.values[countLimit]? ∧
      e.get? countLimit = some (2 ^ 64 - 2) := by
  intro d e
  have hd : d.Sized := .of_inUniverse (by decide) (by decide) nofun
  have he : e.Sized := .of_integer (by decide +kernel) nofun
  obtain ⟨hinner, -⟩ := indexing_exact_iff hd (by decide : 2 ≤ countLimit)
  obtain ⟨hbehind, hnone, -⟩ := indexing_exact_iff hd (by decide : 5 ≤ countLimit)
  obtain ⟨hlimit, -⟩ := indexing_exact_iff he (Nat.le_refl countLimit)
  have hclear : ¬(countLimit = countLimit ∧ e.Clipped) := by
    rintro ⟨-, r, hr, hlong⟩
    cases hr
    exact absurd hlong (by decide)
  exact ⟨hd, hinner.mpr (by simp [countLimit]), by decide,
    hnone (hbehind.mpr (by simp [countLimit])), by decide, he, hlimit.mpr hclear,
    by decide +kernel⟩

end Domain
end FiniteDomains
