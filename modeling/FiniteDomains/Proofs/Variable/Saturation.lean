import FiniteDomains.Proofs.Domain.Changes
import FiniteDomains.Proofs.Domain.Questions
import FiniteDomains.Proofs.Variable.Refinement
import Mathlib.Data.Set.Card

/-! Narrowings of domains with more values than counts go. A narrowing is noticed by the size that
it leaves, and sizes stop at the limit of counts, so it is noticed exactly if it leaves less values
than that. Any other is dropped, and the variable stays as it was. -/
namespace FiniteDomains
variable {t : ValueType} [t.Lawful]

namespace Domain
variable {d e : Domain t}

omit [t.Lawful] in
theorem Sized.of_subset (h : d.Sized) (he : e.Valid) (hsub : ∀ v ∈ e, v ∈ d)
    (hrep : e.isSparse = d.isSparse) : e.Sized where
  toValid := he
  distance := fun v hv w hw => h.distance v (hsub v hv) w (hsub w hw)
  few := fun hsparse =>
    Nat.lt_of_le_of_lt (cardinality_le_of_subset he.consistent h.consistent hsub)
      (h.few (hrep ▸ hsparse))

theorem Sized.size_eq_iff (h : d.Sized) (he : e.Sized) (hsub : ∀ v ∈ e, v ∈ d) :
    e.size = d.size ↔ (∀ v ∈ d, v ∈ e) ∨ countLimit ≤ e.cardinality := by
  have hle := cardinality_le_of_subset he.consistent h.consistent hsub
  rw [h.size_eq, he.size_eq]
  constructor
  · intro hsame
    by_cases hfew : e.cardinality < countLimit
    · exact .inl (mem_of_cardinality he.consistent h.consistent hsub (by omega))
    · exact .inr (Nat.le_of_not_lt hfew)
  · rintro (hback | hmany)
    · have hge := cardinality_le_of_subset h.consistent he.consistent hback
      rw [Nat.le_antisymm hle hge]
    · omega

omit [t.Lawful] in
theorem ncard_mem (h : d.Consistent) : {v | v ∈ d}.ncard = d.cardinality := by
  have hcoe : {v | v ∈ d} = (d.toFinset : Set Int) := Set.ext fun v => mem_toFinset.symm
  rw [hcoe, Set.ncard_coe_finset, card_toFinset h]

omit [t.Lawful] in
theorem ncard_within (h : d.Consistent) (lo hi : Int) :
    {v | v ∈ d ∧ lo ≤ v ∧ v ≤ hi}.ncard = (d.restrict lo hi).cardinality := by
  rw [← ncard_mem (restrict_consistent h lo hi)]
  exact congrArg Set.ncard (Set.ext fun v => (mem_restrict h).symm)

end Domain

namespace Change
variable {d e : Domain t}

/-- A change to a part of a domain goes unnoticed if there is none, or if as many values are left as
counts go. -/
theorem between_eq_unchanged_iff_mem (hd : d.Sized) (he : e.Sized) (hde : d.NarrowsTo e) :
    between d e = .unchanged ↔ (∀ v, v ∈ e ↔ v ∈ d) ∨ countLimit ≤ e.cardinality := by
  rw [between_eq_unchanged_iff, hd.size_eq_iff he hde.subset]
  exact or_congr_left (forall_congr' fun v => ⟨fun hback => ⟨hde.subset v, hback⟩, Iff.mpr⟩)

end Change

namespace Variable
variable {v : Variable t} {n : Narrowing t} {level : Nat} {d : Domain t} {lo hi : Int}
variable {outcome : Outcome (Variable t) Change}

/-- A narrowing reports a change and leaves exactly the values that it keeps. -/
def Noticed (v : Variable t) (n : Narrowing t) (outcome : Outcome (Variable t) Change) : Prop :=
  ∃ v' change, outcome = .done v' change ∧ change ≠ .unchanged ∧
    ∀ w, w ∈ v'.values ↔ w ∈ v.values ∧ n.Keeps w

omit [t.Lawful] in
theorem Narrowed.ncard_eq (h : v.Narrowed n d) :
    {w | w ∈ v.values ∧ n.Keeps w}.ncard = d.cardinality := by
  rw [← Domain.ncard_mem h.valid.consistent]
  exact congrArg Set.ncard (Set.ext fun w => (h.mem w).symm)

theorem Narrowed.size_eq_iff (h : v.Narrowed n d) (hv : v.values.Sized)
    (hlost : ∃ w ∈ v.values, ¬n.Keeps w) :
    d.size = v.values.size ↔ countLimit ≤ {w | w ∈ v.values ∧ n.Keeps w}.ncard := by
  have hsub (w : Int) (hw : w ∈ d) : w ∈ v.values := ((h.mem w).mp hw).1
  have hless : ¬∀ w ∈ v.values, w ∈ d := by
    obtain ⟨w, hw, hdrop⟩ := hlost
    exact fun hback => hdrop ((h.mem w).mp (hback w hw)).2
  rw [hv.size_eq_iff (hv.of_subset h.valid hsub h.isSparse) hsub, h.ncard_eq,
    or_iff_right hless]

theorem NarrowResult.noticed_or_dropped (h : NarrowResult v level n outcome)
    (hv : v.values.Sized) (haccepted : ∀ offset, ¬n.Refused offset)
    (hkept : ∃ w ∈ v.values, n.Keeps w) (hlost : ∃ w ∈ v.values, ¬n.Keeps w) :
    {w | w ∈ v.values ∧ n.Keeps w}.ncard < countLimit ∧ v.Noticed n outcome ∨
      countLimit ≤ {w | w ∈ v.values ∧ n.Keeps w}.ncard ∧ outcome = .done v .unchanged := by
  cases h with
  | emptied hnone =>
    obtain ⟨w, hw, hk⟩ := hkept
    exact absurd hk (hnone w hw)
  | kept d hd hsize => exact .inr ⟨(hd.size_eq_iff hv hlost).mp hsize, rfl⟩
  | changed d hd hne hsize =>
    refine .inl ⟨?_, _, _, rfl, ?_, fun w => ?_⟩
    · rwa [ne_eq, hd.size_eq_iff hv hlost, not_le] at hsize
    · rwa [ne_eq, Change.between_eq_unchanged_iff]
    · rw [setValues_values, hd.mem]
  | refused offset href => exact absurd href (haccepted offset)

/-- Keeping a range that has some of the values, but not all, is reported and leaves exactly those
values, if and only if they are less than counts go; with more of them nothing happens. Of the parts
of a domain none goes unnoticed but the domain itself and those with at least as many values. -/
theorem narrowing_noticed_iff (hv : v.values.Sized) (hs : v.stamp ≤ level)
    (hkept : ∃ w ∈ v.values, lo ≤ w ∧ w ≤ hi) (hlost : ∃ w ∈ v.values, ¬(lo ≤ w ∧ w ≤ hi)) :
    (v.Noticed (.within lo hi) (v.narrow level (.within lo hi)) ↔
        {w | w ∈ v.values ∧ lo ≤ w ∧ w ≤ hi}.ncard < countLimit) ∧
      (countLimit ≤ {w | w ∈ v.values ∧ lo ≤ w ∧ w ≤ hi}.ncard →
        v.narrow level (.within lo hi) = .done v .unchanged) ∧
      ∀ d e : Domain t, d.Sized → e.Sized → d.NarrowsTo e →
        (Change.between d e = .unchanged ↔ (∀ w, w ∈ e ↔ w ∈ d) ∨ countLimit ≤ e.cardinality) := by
  have hfilled : v.current.Filled := by
    obtain ⟨w, hw, -⟩ := hkept
    refine ⟨hv.toValid, Bool.not_eq_true _ ▸ fun hempty => ?_⟩
    exact (Domain.isEmpty_iff hv.consistent).mp hempty w hw
  have hresult := narrow_result (n := .within lo hi) hfilled hs trivial trivial
  refine ⟨?_, ?_, fun d e => Change.between_eq_unchanged_iff_mem⟩
  all_goals
    rcases hresult.noticed_or_dropped hv nofun hkept hlost with ⟨hfew, hseen⟩ | ⟨hmany, hout⟩
  · exact iff_of_true hseen hfew
  · refine iff_of_false ?_ (Nat.not_lt_of_le hmany)
    rintro ⟨_, _, hdone, hchange, -⟩
    rw [hout] at hdone
    cases hdone
    exact hchange rfl
  · exact fun hmany => absurd hfew (Nat.not_lt_of_le hmany)
  · exact fun _ => hout

/-- The greatest of `2 ^ 64` values is not dropped. -/
theorem narrowing_unnoticed :
    let d : Domain .integer := .intervals [⟨0, 2 ^ 64 - 1⟩]
    let e : Domain .integer := .intervals [⟨0, 2 ^ 64 - 2⟩]
    let v : Variable .integer := ⟨0, ⟨d, 0, .empty, .empty, false⟩, []⟩
    make 0 d = .ok v ∧ v.stamp ≤ 0 ∧ 0 ∈ v.values ∧ 2 ^ 64 - 1 ∈ v.values ∧
      v.narrow 0 (.within 0 (2 ^ 64 - 2)) = .done v .unchanged ∧
      d.NarrowsTo e ∧ 2 ^ 64 - 1 ∉ e ∧ Change.between d e = .unchanged := by
  intro d e v
  have hsub : ∀ u ∈ e, u ∈ d := by
    simp only [d, e, Domain.forall_mem_intervals, List.forall_mem_singleton]
    rintro u ⟨hlo, hhi⟩
    exact ⟨_, List.mem_cons_self, hlo, hhi.trans (by decide)⟩
  exact ⟨rfl, Nat.le_refl 0, by decide, by decide, by decide +kernel, ⟨by decide, rfl, hsub⟩,
    by decide, by decide +kernel⟩

/-- One of the greatest of `2 ^ 64 - 1` values is dropped, and one of `2 ^ 64` is not. -/
theorem narrowing_noticed_iff_limit :
    let few : Domain .integer := .intervals [⟨1, 2 ^ 64 - 1⟩]
    let many : Domain .integer := .intervals [⟨0, 2 ^ 64 - 1⟩]
    let v : Variable .integer := ⟨0, ⟨few, 0, .empty, .empty, false⟩, []⟩
    let w : Variable .integer := ⟨0, ⟨many, 0, .empty, .empty, false⟩, []⟩
    few.Sized ∧ many.Sized ∧
      v.Noticed (.within 0 (2 ^ 64 - 2)) (v.narrow 3 (.within 0 (2 ^ 64 - 2))) ∧
      w.narrow 3 (.within 0 (2 ^ 64 - 2)) = .done w .unchanged ∧
      (Change.between many few = .unchanged ↔
        (∀ u, u ∈ few ↔ u ∈ many) ∨ countLimit ≤ few.cardinality) := by
  intro few many v w
  have hfew : few.Sized := .of_integer (by decide +kernel) nofun
  have hmany : many.Sized := .of_integer (by decide +kernel) nofun
  have hkept : ∃ u ∈ v.values, 0 ≤ u ∧ u ≤ 2 ^ 64 - 2 := ⟨1, by decide⟩
  have hlost : ∃ u ∈ v.values, ¬(0 ≤ u ∧ u ≤ 2 ^ 64 - 2) := ⟨2 ^ 64 - 1, by decide⟩
  have hkept' : ∃ u ∈ w.values, 0 ≤ u ∧ u ≤ 2 ^ 64 - 2 := ⟨0, by decide⟩
  have hlost' : ∃ u ∈ w.values, ¬(0 ≤ u ∧ u ≤ 2 ^ 64 - 2) := ⟨2 ^ 64 - 1, by decide⟩
  obtain ⟨hnoticed, -, hbetween⟩ :=
    narrowing_noticed_iff (v := v) hfew (by decide : 0 ≤ 3) hkept hlost
  obtain ⟨-, hdropped, -⟩ := narrowing_noticed_iff (v := w) hmany (by decide : 0 ≤ 3) hkept' hlost'
  have hsub : many.NarrowsTo few := by
    refine ⟨by decide, rfl, ?_⟩
    simp only [few, many, Domain.forall_mem_intervals, List.forall_mem_singleton]
    rintro u ⟨hlo, hhi⟩
    exact ⟨_, List.mem_cons_self, Int.le_trans (by decide) hlo, hhi⟩
  refine ⟨hfew, hmany, hnoticed.mpr ?_, hdropped ?_, hbetween many few hmany hfew hsub⟩
  · exact (Domain.ncard_within hfew.consistent 0 _).trans_lt (by decide +kernel)
  · exact Nat.le_trans (by decide +kernel) (Domain.ncard_within hmany.consistent 0 _).ge

end Variable
end FiniteDomains
