import FiniteDomains.Domain.Algebra
import FiniteDomains.Proofs.Domain.Points

/-! The operations of a domain on its set of values, whatever its representation. -/
namespace FiniteDomains.Domain
variable {t : ValueType} {d e : Domain t} {lo hi offset v : Int}

/-- A domain in the one form that stands for its set, of values that can be stored. -/
structure Valid (d : Domain t) : Prop where
  consistent : d.Consistent
  fits : ∀ v ∈ d, t.fits v = true

theorem mem_intervals {rs : List Interval} :
    v ∈ (.intervals rs : Domain t) ↔ v ∈ Runs.covered rs := Iff.rfl

theorem mem_sparse {vs : List Int} : v ∈ (.sparse vs : Domain t) ↔ v ∈ vs := Iff.rfl

instance (d : Domain t) (v : Int) : Decidable (v ∈ d) :=
  match d with
  | .intervals rs => inferInstanceAs (Decidable (∃ r ∈ rs, r.lo ≤ v ∧ v ≤ r.hi))
  | .sparse vs => inferInstanceAs (Decidable (v ∈ vs))

instance (d : Domain t) : Decidable d.Consistent :=
  match d with
  | .intervals rs => inferInstanceAs (Decidable (Runs.Consistent rs))
  | .sparse vs => inferInstanceAs (Decidable (Points.Consistent vs))

@[simp] theorem forall_mem_intervals {rs : List Interval} {P : Int → Prop} :
    (∀ v ∈ (.intervals rs : Domain t), P v) ↔ ∀ r ∈ rs, ∀ v ∈ r, P v := by
  constructor
  · intro h r hr v hv
    exact h v ⟨r, hr, hv⟩
  · rintro h v ⟨r, hr, hv⟩
    exact h r hr v hv

@[simp] theorem forall_mem_sparse {vs : List Int} {P : Int → Prop} :
    (∀ v ∈ (.sparse vs : Domain t), P v) ↔ ∀ v ∈ vs, P v := Iff.rfl

theorem contains_iff [t.Lawful] (h : d.Consistent) : d.contains v = true ↔ v ∈ d := by
  rw [contains, coversRange.eq_def, decide_eq_true (Int.le_refl v), Bool.true_and]
  cases d with
  | intervals rs =>
    rw [Runs.coversRange_iff h (Int.le_refl v)]
    constructor
    · exact fun hall => hall v (Int.le_refl v) (Int.le_refl v)
    · intro hv w hle hge
      exact Int.le_antisymm hle hge ▸ hv
  | sparse vs => exact Points.coversRange_self h

/-! ### Keeping and dropping a range -/

theorem not_mem_cleared (d : Domain t) (v : Int) : v ∉ d.cleared := by
  cases d with
  | intervals rs => simp [cleared, mem_intervals, Runs.covered]
  | sparse vs => simp [cleared, mem_sparse]

theorem cleared_consistent (d : Domain t) : d.cleared.Consistent := by
  cases d <;> trivial

theorem mem_restrict (h : d.Consistent) : v ∈ d.restrict lo hi ↔ v ∈ d ∧ lo ≤ v ∧ v ≤ hi := by
  simp only [restrict]
  split
  · next hinv =>
    simp only [not_mem_cleared, false_iff, not_and]
    omega
  · cases d with
    | intervals rs => exact Runs.mem_covered_restrict
    | sparse vs => exact Points.mem_restrict h

theorem restrict_consistent (h : d.Consistent) (lo hi : Int) : (d.restrict lo hi).Consistent := by
  simp only [restrict]
  split
  · exact cleared_consistent d
  · next hle =>
    cases d with
    | intervals rs => exact Runs.Consistent.restrict h (by omega)
    | sparse vs => exact Points.Consistent.restrict h

theorem restrict_isSparse (d : Domain t) (lo hi : Int) :
    (d.restrict lo hi).isSparse = d.isSparse := by
  simp only [restrict]
  split <;> cases d <;> rfl

theorem Valid.of_subset (h : d.Valid) (he : e.Consistent) (hsub : ∀ v ∈ e, v ∈ d) : e.Valid :=
  ⟨he, fun v hv => h.fits v (hsub v hv)⟩

theorem Valid.restrict (h : d.Valid) (lo hi : Int) : (d.restrict lo hi).Valid :=
  h.of_subset (restrict_consistent h.consistent lo hi)
    fun _ hv => ((mem_restrict h.consistent).mp hv).1

theorem mem_eraseRange (h : d.Valid) : v ∈ d.eraseRange lo hi ↔ v ∈ d ∧ ¬(lo ≤ v ∧ v ≤ hi) := by
  simp only [eraseRange]
  split
  · next hinv =>
    have hout : ¬(lo ≤ v ∧ v ≤ hi) := by omega
    simp [hout]
  · next hle =>
    cases d with
    | intervals rs => exact Runs.mem_covered_erase h.fits (by omega)
    | sparse vs => exact Points.mem_erase h.consistent (by omega)

theorem Valid.eraseRange (h : d.Valid) (lo hi : Int) : (d.eraseRange lo hi).Valid := by
  refine h.of_subset ?_ fun _ hv => ((mem_eraseRange h).mp hv).1
  simp only [Domain.eraseRange]
  split
  · exact h.consistent
  · next hle =>
    cases d with
    | intervals rs => exact Runs.Consistent.erase h.consistent h.fits (by omega)
    | sparse vs => exact Points.Consistent.erase h.consistent

theorem eraseRange_isSparse (d : Domain t) (lo hi : Int) :
    (d.eraseRange lo hi).isSparse = d.isSparse := by
  simp only [eraseRange]
  split
  · rfl
  · cases d <;> rfl

/-! ### Two domains -/

theorem operandRanges_le {r : Interval} (h : d.Consistent) (hr : r ∈ d.operandRanges) :
    r.lo ≤ r.hi := by
  cases d with
  | intervals rs => exact Runs.Consistent.le h hr
  | sparse vs =>
    obtain ⟨v, -, rfl⟩ := List.mem_map.mp hr
    exact Int.le_refl v

theorem covered_operandRanges (d : Domain t) : v ∈ Runs.covered d.operandRanges ↔ v ∈ d := by
  cases d with
  | intervals rs => rfl
  | sparse vs =>
    constructor
    · rintro ⟨r, hr, hle, hge⟩
      obtain ⟨w, hw, rfl⟩ := List.mem_map.mp hr
      exact Int.le_antisymm hge hle ▸ hw
    · intro hv
      exact ⟨⟨v, v⟩, List.mem_map.mpr ⟨v, hv, rfl⟩, Int.le_refl v, Int.le_refl v⟩

theorem Valid.runs [t.Lawful] (h : d.Valid) :
    Runs.Consistent d.runs ∧ ∀ v, v ∈ Runs.covered d.runs ↔ v ∈ d := by
  cases d with
  | intervals rs => exact ⟨h.consistent, fun _ => Iff.rfl⟩
  | sparse vs =>
    obtain ⟨hcons, hmem, -⟩ := Points.runs_spec h.consistent h.fits
    exact ⟨hcons, hmem⟩

/-! ### Ends -/

theorem isEmpty_iff (h : d.Consistent) : d.isEmpty = true ↔ ∀ v, v ∉ d := by
  cases d with
  | intervals rs =>
    cases rs with
    | nil => simp [isEmpty, mem_intervals, Runs.covered]
    | cons r rs =>
      have hlo : r.lo ∈ (.intervals (r :: rs) : Domain t) :=
        ⟨r, List.mem_cons_self, Int.le_refl _, h.1⟩
      simp only [isEmpty, List.isEmpty_cons, Bool.false_eq_true, false_iff, not_forall, not_not]
      exact ⟨r.lo, hlo⟩
  | sparse vs =>
    cases vs with
    | nil => simp [isEmpty, mem_sparse]
    | cons v vs =>
      simp only [isEmpty, List.isEmpty_cons, Bool.false_eq_true, false_iff, not_forall, not_not]
      exact ⟨v, List.mem_cons_self⟩

theorem min?_isLeast {m : Int} (h : d.Consistent) (hm : d.min? = some m) :
    IsLeast {v | v ∈ d} m := by
  cases d with
  | intervals rs => exact Runs.min?_isLeast h hm
  | sparse vs => exact Points.head?_isLeast h hm

theorem max?_isGreatest {m : Int} (h : d.Consistent) (hm : d.max? = some m) :
    IsGreatest {v | v ∈ d} m := by
  cases d with
  | intervals rs => exact Runs.max?_isGreatest h hm
  | sparse vs => exact Points.getLast?_isGreatest h hm

theorem exists_ends (h : d.isEmpty = false) : ∃ m n, d.min? = some m ∧ d.max? = some n := by
  cases d with
  | intervals rs =>
    cases rs with
    | nil => cases h
    | cons r rs =>
      have hlast := List.getLast?_eq_some_getLast (List.cons_ne_nil r rs)
      exact ⟨r.lo, _, rfl, by simp only [max?, Runs.max?, hlast]; rfl⟩
  | sparse vs =>
    cases vs with
    | nil => cases h
    | cons v vs =>
      exact ⟨v, _, rfl, List.getLast?_eq_some_getLast (List.cons_ne_nil v vs)⟩

theorem meetsRange_iff (h : d.Consistent) :
    d.meetsRange lo hi = true ↔ ∃ v ∈ d, lo ≤ v ∧ v ≤ hi := by
  cases d with
  | intervals rs =>
    simp only [meetsRange, Bool.and_eq_true, decide_eq_true_eq]
    constructor
    · rintro ⟨hle, hmeets⟩
      exact (Runs.meetsRange_iff h hle).mp hmeets
    · rintro ⟨v, hv, hlo, hhi⟩
      exact ⟨hlo.trans hhi, (Runs.meetsRange_iff h (hlo.trans hhi)).mpr ⟨v, hv, hlo, hhi⟩⟩
  | sparse vs =>
    have hmem (v : Int) : v ∈ Points.restrict lo hi vs ↔ v ∈ vs ∧ lo ≤ v ∧ v ≤ hi :=
      Points.mem_restrict h
    simp only [meetsRange, Points.meetsRange, Bool.and_eq_true, decide_eq_true_eq,
      Bool.not_eq_true', List.isEmpty_eq_false_iff_exists_mem, hmem]
    constructor
    · rintro ⟨-, v, hv, hin⟩
      exact ⟨v, hv, hin⟩
    · rintro ⟨v, hv, hin⟩
      exact ⟨by omega, v, hv, hin⟩

/-! ### Counting -/

def toFinset : Domain t → Finset Int
  | .intervals rs => Runs.toFinset rs
  | .sparse vs => vs.toFinset

theorem mem_toFinset : v ∈ d.toFinset ↔ v ∈ d := by
  cases d with
  | intervals rs => exact Runs.mem_toFinset
  | sparse vs => exact List.mem_toFinset

theorem card_toFinset (h : d.Consistent) : d.toFinset.card = d.cardinality := by
  cases d with
  | intervals rs => exact Runs.Consistent.card_toFinset h
  | sparse vs => exact Points.Consistent.card_toFinset h

theorem cardinality_le_of_subset (h : d.Consistent) (he : e.Consistent) (hsub : ∀ v ∈ d, v ∈ e) :
    d.cardinality ≤ e.cardinality := by
  rw [← card_toFinset h, ← card_toFinset he]
  exact Finset.card_le_card fun v hv => mem_toFinset.mpr (hsub v (mem_toFinset.mp hv))

theorem mem_of_cardinality (h : d.Consistent) (he : e.Consistent) (hsub : ∀ v ∈ d, v ∈ e)
    (hcard : e.cardinality ≤ d.cardinality) : ∀ v ∈ e, v ∈ d := by
  rw [← card_toFinset h, ← card_toFinset he] at hcard
  have hsub' : d.toFinset ⊆ e.toFinset := fun v hv => mem_toFinset.mpr (hsub v (mem_toFinset.mp hv))
  have heq := Finset.eq_of_subset_of_card_le hsub' hcard
  intro v hv
  rw [← mem_toFinset, heq]
  exact mem_toFinset.mpr hv

theorem isSingleton_iff (h : d.Consistent) : d.isSingleton = true ↔ ∃ w, d.toFinset = {w} := by
  simp only [isSingleton, Bool.and_eq_true, Option.isSome_iff_exists, decide_eq_true_eq]
  constructor
  · rintro ⟨⟨w, hmin⟩, hends⟩
    have hleast := min?_isLeast h hmin
    have hgreatest := max?_isGreatest h (hends.symm.trans hmin)
    refine ⟨w, Finset.ext fun u => ?_⟩
    rw [mem_toFinset, Finset.mem_singleton]
    constructor
    · intro hu
      exact Int.le_antisymm (hgreatest.2 hu) (hleast.2 hu)
    · rintro rfl
      exact hleast.1
  · rintro ⟨w, hw⟩
    have hmem (u : Int) : u ∈ d ↔ u = w := by rw [← mem_toFinset, hw, Finset.mem_singleton]
    have hne : d.isEmpty = false := by
      rw [← Bool.not_eq_true, isEmpty_iff h]
      exact fun hnone => hnone w ((hmem w).mpr rfl)
    obtain ⟨m, g, hm, hg⟩ := exists_ends hne
    obtain rfl := (hmem m).mp (min?_isLeast h hm).1
    obtain rfl := (hmem g).mp (max?_isGreatest h hg).1
    exact ⟨⟨g, hm⟩, hm.trans hg.symm⟩

/-- Domains of one representation with the same values are the same. -/
theorem eq_of_mem_iff (h : d.Consistent) (he : e.Consistent) (hrep : d.isSparse = e.isSparse)
    (hmem : ∀ v, v ∈ d ↔ v ∈ e) : d = e := by
  cases d with
  | intervals rs =>
    cases e with
    | intervals qs => rw [Runs.Consistent.eq_of_covered h he (Set.ext hmem)]
    | sparse ws => cases hrep
  | sparse vs =>
    cases e with
    | intervals qs => cases hrep
    | sparse ws => rw [Points.Consistent.eq_of_mem_iff h he hmem]

theorem eq_or_cardinality_lt (h : d.Consistent) (he : e.Consistent)
    (hrep : d.isSparse = e.isSparse) (hsub : ∀ v ∈ d, v ∈ e) :
    d = e ∨ d.cardinality < e.cardinality := by
  by_cases hlt : d.cardinality < e.cardinality
  · exact .inr hlt
  · have hback := mem_of_cardinality h he hsub (Nat.le_of_not_lt hlt)
    exact .inl (eq_of_mem_iff h he hrep fun v => ⟨hsub v, hback v⟩)

/-! ### The universe -/

def InUniverse (d : Domain t) : Prop := ∀ v ∈ d, t.Admissible v

theorem inUniverse_intervals {rs : List Interval} : (.intervals rs : Domain t).InUniverse ↔
    ∀ r ∈ rs, r.lo ≤ r.hi → t.minValue ≤ r.lo ∧ r.hi ≤ t.maxValue := by
  rw [InUniverse, forall_mem_intervals]
  refine forall₂_congr fun r _ => ?_
  constructor
  · intro h hle
    exact ⟨(h r.lo ⟨Int.le_refl _, hle⟩).1, (h r.hi ⟨hle, Int.le_refl _⟩).2⟩
  · rintro h v ⟨hlo, hhi⟩
    obtain ⟨hmin, hmax⟩ := h (Int.le_trans hlo hhi)
    exact ⟨Int.le_trans hmin hlo, Int.le_trans hhi hmax⟩

instance (d : Domain t) : Decidable d.InUniverse :=
  match d with
  | .intervals _ => decidable_of_iff _ inUniverse_intervals.symm
  | .sparse vs => inferInstanceAs (Decidable (∀ v ∈ vs, t.Admissible v))

theorem InUniverse.valid [t.Lawful] (hu : d.InUniverse) (h : d.Consistent) : d.Valid :=
  ⟨h, fun v hv => (hu v hv).fits⟩

theorem InUniverse.cardinality_le [t.Lawful] (hu : d.InUniverse) (h : d.Consistent) :
    d.cardinality ≤ countLimit := by
  have hmax := ValueType.Lawful.one_le_max (t := t)
  have hmin := ValueType.Lawful.min_eq (t := t)
  have hlimit := ValueType.Lawful.universe_le (t := t)
  have hsub : d.toFinset ⊆ Interval.toFinset ⟨t.minValue, t.maxValue⟩ := by
    intro v hv
    exact Interval.mem_toFinset.mpr (hu v (mem_toFinset.mp hv))
  have hcard := Finset.card_le_card hsub
  rw [card_toFinset h, Interval.card_toFinset] at hcard
  have hle : d.cardinality ≤ (t.maxValue + 1 - t.minValue).toNat := hcard
  omega

theorem runs_count_eq [t.Lawful] {rs : List Interval} (h : Runs.Consistent rs)
    (hu : ∀ v ∈ Runs.covered rs, t.Admissible v) :
    rs.foldr (fun r count => r.size t + count) 0 = Runs.cardinality rs := by
  induction rs with
  | nil => rfl
  | cons r rs ih =>
    have hlo := hu r.lo ⟨r, List.mem_cons_self, Int.le_refl _, h.1⟩
    have hhi := hu r.hi ⟨r, List.mem_cons_self, h.1, Int.le_refl _⟩
    have hsize : r.size t = (r.hi + 1 - r.lo).toNat := ValueType.count_eq hlo hhi
    rw [List.foldr_cons, hsize, ih h.tail fun v hv => hu v (Runs.mem_covered_cons.mpr (.inr hv))]
    rfl

theorem InUniverse.size_eq [t.Lawful] (hu : d.InUniverse) (h : d.Consistent) :
    d.size = d.cardinality := by
  have hle := hu.cardinality_le h
  cases d with
  | intervals rs =>
    simp only [size, Runs.size]
    rw [runs_count_eq h hu]
    exact Nat.min_eq_right hle
  | sparse vs => rfl

/-- Inside the universe a part of a domain with its size has all its values. -/
theorem InUniverse.mem_of_size [t.Lawful] (hu : e.InUniverse) (h : d.Consistent)
    (he : e.Consistent) (hsub : ∀ v ∈ d, v ∈ e) (hsize : d.size = e.size) : ∀ v ∈ e, v ∈ d := by
  have hud : d.InUniverse := fun v hv => hu v (hsub v hv)
  rw [hud.size_eq h, hu.size_eq he] at hsize
  exact mem_of_cardinality h he hsub (Nat.le_of_eq hsize.symm)

end FiniteDomains.Domain
