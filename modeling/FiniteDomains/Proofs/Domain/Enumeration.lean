import FiniteDomains.Domain.Enumeration
import FiniteDomains.Proofs.Domain.Matching
import FiniteDomains.Proofs.Domain.Questions

/-! Enumerations of a domain are faithful. The walk through its values ends and gives all of them in
ascending order, the walk through its runs ends and gives the maximal ones, and sizes and ends are
those of the values given. -/
namespace FiniteDomains
variable {t : ValueType}

/-- A walk gives the items of a list one after another, and then there is none. -/
def Yields {σ α : Type} (next? : σ → Option (α × σ)) (walk : σ) : List α → Prop
  | [] => next? walk = none
  | a :: items => ∃ rest, next? walk = some (a, rest) ∧ Yields next? rest items

theorem Yields.congr {σ α : Type} {next? : σ → Option (α × σ)} {walk walk' : σ} {items : List α}
    (h : Yields next? walk items) (hnext : next? walk' = next? walk) :
    Yields next? walk' items := by
  cases items with
  | nil => exact hnext.trans h
  | cons a items =>
    obtain ⟨rest, hstep, hrest⟩ := h
    exact ⟨rest, hnext.trans hstep, hrest⟩

namespace Interval
variable {r : Interval} {v : Int}

theorem values_eq (hle : r.lo ≤ r.hi) : r.values t = t.ascending r.lo (r.hi - r.lo).toNat := by
  rw [values, if_neg (by omega)]

theorem length_values (hle : r.lo ≤ r.hi) : (r.values t).length = (r.hi + 1 - r.lo).toNat := by
  rw [values_eq hle, ValueType.length_ascending]
  omega

theorem mem_values (hle : r.lo ≤ r.hi) (hfit : ∀ v ∈ r, t.fits v = true) :
    v ∈ r.values t ↔ v ∈ r := by
  rw [values_eq hle, ValueType.mem_ascending fun w hlo hhi => hfit w ⟨by omega, by omega⟩, mem_iff]
  omega

theorem values_pairwise (hle : r.lo ≤ r.hi) (hfit : ∀ v ∈ r, t.fits v = true) :
    (r.values t).Pairwise (· < ·) := by
  rw [values_eq hle]
  exact ValueType.ascending_pairwise fun w hlo hhi => hfit w ⟨by omega, by omega⟩

end Interval

/-! ### Value by value -/

namespace Runs
variable {rs : List Interval} {v : Int}

theorem values_cons (r : Interval) (rs : List Interval) :
    values t (r :: rs) = r.values t ++ values t rs := rfl

theorem mem_values (h : Consistent rs) (hfit : ∀ v ∈ covered rs, t.fits v = true) :
    v ∈ values t rs ↔ v ∈ covered rs := by
  rw [values, List.mem_flatMap]
  refine exists_congr fun r => and_congr_right fun hr => ?_
  exact Interval.mem_values (h.le hr) fun w hw => hfit w ⟨r, hr, hw⟩

theorem values_consistent (h : Consistent rs) (hfit : ∀ v ∈ covered rs, t.fits v = true) :
    Points.Consistent (values t rs) := by
  have hfits (r : Interval) (hr : r ∈ rs) : ∀ v ∈ r, t.fits v = true :=
    fun v hv => hfit v ⟨r, hr, hv⟩
  rw [Points.consistent_iff, values, List.pairwise_flatMap]
  refine ⟨fun r hr => Interval.values_pairwise (h.le hr) (hfits r hr), ?_⟩
  refine (consistent_iff.mp h).2.imp_of_mem ?_
  intro r q hr hq hfar v hv w hw
  have hend := ((Interval.mem_values (h.le hr) (hfits r hr)).mp hv).2
  have hstart := ((Interval.mem_values (h.le hq) (hfits q hq)).mp hw).1
  omega

theorem takeValues_eq (h : Consistent rs) (limit : Nat) :
    takeValues t limit rs = (values t rs).take limit := by
  induction rs generalizing limit with
  | nil => simp [takeValues, values]
  | cons r rs ih =>
    have hle := h.1
    cases limit with
    | zero => simp [takeValues]
    | succ limit =>
      have htake : takeValues t (limit + 1) (r :: rs) =
          t.ascending r.lo (min limit (r.hi - r.lo).toNat)
            ++ takeValues t (limit - (r.hi - r.lo).toNat) rs := by
        rw [takeValues, if_neg (by omega)]
      have hrest : limit + 1 - (r.hi + 1 - r.lo).toNat = limit - (r.hi - r.lo).toNat := by omega
      rw [htake, values_cons, List.take_append, Interval.length_values hle, Interval.values_eq hle,
        ValueType.take_ascending, ih h.tail, hrest]

theorem yields_interval {lo : Int} {steps : Nat} {rest : List Interval} {items : List Int}
    (hfit : ∀ w, lo < w → w ≤ lo + steps → t.fits w = true)
    (hrest : Yields (ValueWalk.next? t) (.intervals none rest) items) :
    Yields (ValueWalk.next? t) (.intervals (some ⟨lo, lo + steps⟩) rest)
      (t.ascending lo steps ++ items) := by
  induction steps generalizing lo with
  | zero =>
    refine ⟨.intervals none rest, ?_, hrest⟩
    simp [ValueWalk.next?, ValueWalk.giveFirst]
  | succ steps ih =>
    have hsucc : t.succ lo = lo + 1 := ValueType.succ_eq (hfit _ (by omega) (by omega))
    have hend : lo + 1 + steps = lo + ↑(steps + 1) := by omega
    have hbehind : Yields (ValueWalk.next? t) (.intervals (some ⟨lo + 1, lo + 1 + steps⟩) rest)
        (t.ascending (lo + 1) steps ++ items) := ih fun w hlo hhi => hfit w (by omega) (by omega)
    rw [hend] at hbehind
    rw [ValueType.ascending, hsucc, List.cons_append]
    refine ⟨_, ?_, hbehind⟩
    rw [ValueWalk.next?, ValueWalk.giveFirst, if_pos (by simp only; omega), hsucc]

theorem yields_values (h : Consistent rs) (hfit : ∀ v ∈ covered rs, t.fits v = true) :
    Yields (ValueWalk.next? t) (.intervals none rs) (values t rs) := by
  induction rs with
  | nil => rfl
  | cons r rs ih =>
    have hle := h.1
    have hrest := ih h.tail fun v hv => hfit v (mem_covered_cons.mpr (.inr hv))
    have hend : r.lo + (r.hi - r.lo).toNat = r.hi := by omega
    have hfirst (w : Int) (hlo : r.lo < w) (hhi : w ≤ r.lo + (r.hi - r.lo).toNat) :
        t.fits w = true := hfit w (mem_covered_cons.mpr (.inl ⟨by omega, by omega⟩))
    have hyields := yields_interval hfirst hrest
    rw [hend, ← Interval.values_eq hle] at hyields
    exact hyields.congr rfl

end Runs

/-! ### Run by run -/

namespace Points
variable {vs : List Int} {v : Int}

theorem runs_cons (v : Int) (vs : List Int) :
    runs t (v :: vs) = ⟨v, (RunWalk.extend t v vs).1⟩ :: runs t (RunWalk.extend t v vs).2 := by
  induction vs generalizing v with
  | nil => rfl
  | cons w ws ih =>
    rw [runs, ih w, RunWalk.extend]
    by_cases hnext : w = t.succ v
    · simp only [if_pos hnext]
    · simp only [if_neg hnext, ih w]

theorem length_extend_le (hi : Int) (vs : List Int) :
    (RunWalk.extend t hi vs).2.length ≤ vs.length := by
  induction vs generalizing hi with
  | nil => exact Nat.le_refl _
  | cons v vs ih =>
    rw [RunWalk.extend]
    split
    · exact (ih v).trans (Nat.le_succ _)
    · exact Nat.le_refl _

theorem yields_values (vs : List Int) : Yields (ValueWalk.next? t) (.points vs) vs := by
  induction vs with
  | nil => rfl
  | cons v vs ih => exact ⟨.points vs, rfl, ih⟩

theorem yields_runs (vs : List Int) : Yields (RunWalk.next? t) (.points vs) (runs t vs) := by
  induction hlength : vs.length using Nat.strong_induction_on generalizing vs with
  | _ length ih =>
    cases vs with
    | nil => rfl
    | cons v vs =>
      have hle := length_extend_le (t := t) v vs
      rw [List.length_cons] at hlength
      rw [runs_cons]
      exact ⟨_, rfl, ih _ (by omega) _ rfl⟩

end Points

theorem Runs.yields_runs (rs : List Interval) : Yields (RunWalk.next? t) (.intervals rs) rs := by
  induction rs with
  | nil => rfl
  | cons r rs ih => exact ⟨.intervals rs, rfl, ih⟩

namespace Domain
variable {d e : Domain t} {v : Int}

/-! ### Values and runs of a domain -/

theorem Valid.mem_values (h : d.Valid) : v ∈ d.values ↔ v ∈ d := by
  cases d with
  | intervals rs => exact Runs.mem_values h.consistent h.fits
  | sparse vs => exact Iff.rfl

theorem Valid.values_consistent (h : d.Valid) : Points.Consistent d.values := by
  cases d with
  | intervals rs => exact Runs.values_consistent h.consistent h.fits
  | sparse vs => exact h.consistent

theorem Valid.length_values (h : d.Valid) : d.values.length = d.cardinality := by
  have hsets : d.values.toFinset = d.toFinset := by
    ext v
    rw [List.mem_toFinset, h.mem_values, mem_toFinset]
  rw [← h.values_consistent.card_toFinset, hsets, card_toFinset h.consistent]

theorem Valid.yields_values (h : d.Valid) : Yields (ValueWalk.next? t) d.valueWalk d.values := by
  cases d with
  | intervals rs => exact Runs.yields_values h.consistent h.fits
  | sparse vs => exact Points.yields_values vs

theorem Valid.takeValues_eq (h : d.Valid) (limit : Nat) :
    d.takeValues limit = d.values.take limit := by
  cases d with
  | intervals rs => exact Runs.takeValues_eq h.consistent limit
  | sparse vs => rfl

theorem yields_runs (d : Domain t) : Yields (RunWalk.next? t) d.runWalk d.runs := by
  cases d with
  | intervals rs => exact Runs.yields_runs rs
  | sparse vs => exact Points.yields_runs vs

theorem Valid.values_runs [t.Lawful] (h : d.Valid) :
    d.runs.flatMap (Interval.values t) = d.values := by
  obtain ⟨hcons, hmem⟩ := h.runs
  have hfit : ∀ v ∈ Runs.covered d.runs, t.fits v = true := fun v hv => h.fits v ((hmem v).mp hv)
  refine (Runs.values_consistent hcons hfit).eq_of_mem_iff h.values_consistent fun v => ?_
  rw [Runs.mem_values hcons hfit, hmem, h.mem_values]

/-- What enumerating a domain comes to: both walks end, with all the values in ascending order and
with the maximal runs, which are those counted and numbered, and the ends of the domain are the
first and the last value. -/
structure Enumerated (d : Domain t) : Prop where
  yields_values : Yields (ValueWalk.next? t) d.valueWalk d.values
  mem_values : ∀ v, v ∈ d.values ↔ v ∈ d
  ascending : d.values.Pairwise (· < ·)
  first_values : ∀ limit, d.takeValues limit = d.values.take limit
  yields_runs : Yields (RunWalk.next? t) d.runWalk d.runs
  values_runs : d.runs.flatMap (Interval.values t) = d.values
  maximal : ∀ r ∈ d.runs, r.lo ≤ r.hi ∧ r.lo - 1 ∉ d ∧ r.hi + 1 ∉ d
  apart : d.runs.Pairwise fun r q => r.hi + 1 < q.lo
  runCount_eq : d.runCount = d.runs.length
  run?_eq : ∀ index, d.run? index = d.runs[index]?
  min?_eq : d.min? = d.values.head?
  max?_eq : d.max? = d.values.getLast?

theorem Valid.enumerated [t.Lawful] (h : d.Valid) : d.Enumerated where
  yields_values := h.yields_values
  mem_values := fun _ => h.mem_values
  ascending := Points.consistent_iff.mp h.values_consistent
  first_values := h.takeValues_eq
  yields_runs := d.yields_runs
  values_runs := h.values_runs
  maximal := by
    obtain ⟨hcons, hmem⟩ := h.runs
    intro r hr
    rw [← hmem, ← hmem]
    exact ⟨hcons.le hr, hcons.pred_lo_not_mem hr, hcons.succ_hi_not_mem hr⟩
  apart := (Runs.consistent_iff.mp h.runs.1).2
  runCount_eq := rfl
  run?_eq := fun _ => rfl
  min?_eq := min?_congr (e := .sparse d.values) h.consistent h.values_consistent
    fun _ => h.mem_values.symm
  max?_eq := max?_congr (e := .sparse d.values) h.consistent h.values_consistent
    fun _ => h.mem_values.symm

/-! ### Sizes of two domains -/

theorem roomFor_of_inner (hinner : ∀ v ∈ e, t.Inner v) : d.RoomFor e :=
  fun _ v _ hve => hinner v hve

theorem Valid.cardinality_union_add_inter [t.Lawful] (h : d.Valid) (he : e.Valid)
    (hinner : ∀ v ∈ e, t.Inner v) :
    (d.union e).cardinality + (d.inter e).cardinality = d.cardinality + e.cardinality := by
  have hunion := h.union_selects he hinner
  have hinter := h.inter_selects he (roomFor_of_inner hinner)
  have hjoined : (d.union e).toFinset = d.toFinset ∪ e.toFinset := by
    ext v
    simp only [mem_toFinset, Finset.mem_union, hunion.mem]
  have hcommon : (d.inter e).toFinset = d.toFinset ∩ e.toFinset := by
    ext v
    simp only [mem_toFinset, Finset.mem_inter, hinter.mem]
  rw [← card_toFinset hunion.valid.consistent, ← card_toFinset hinter.valid.consistent, hjoined,
    hcommon, Finset.card_union_add_card_inter, card_toFinset h.consistent,
    card_toFinset he.consistent]

theorem size_eq_cardinality [t.Lawful] (h : d.Consistent)
    (hdistance : ∀ v ∈ d, ∀ w ∈ d, v ≤ w → t.fits (w - v + 1) = true)
    (hle : d.cardinality ≤ countLimit) : d.size = d.cardinality := by
  cases d with
  | intervals rs => exact (Runs.size_eq_min h hdistance).trans (Nat.min_eq_right hle)
  | sparse vs => rfl

theorem InUniverse.fits_across [t.Lawful] (hd : d.InUniverse) (he : e.InUniverse) :
    ∀ v ∈ d, ∀ w ∈ e, t.fits (|w - v| + 1) = true := by
  intro v hv w hw
  have hmin := ValueType.Lawful.min_eq (t := t)
  obtain ⟨hvlo, hvhi⟩ := hd v hv
  obtain ⟨hwlo, hwhi⟩ := he w hw
  have hle : |w - v| ≤ 2 * t.maxValue + 1 := abs_le.mpr ⟨by omega, by omega⟩
  have hnonneg : 0 ≤ |w - v| := abs_nonneg _
  exact ValueType.Lawful.fits_near _ (by omega) (by omega)

/-- Sizes add up as those of sets do, as long as all values of both domains can be counted. -/
theorem Sized.size_union_add_inter [t.Lawful] (h : d.Sized) (he : e.Sized)
    (hinner : ∀ v ∈ e, t.Inner v) (hacross : ∀ v ∈ d, ∀ w ∈ e, t.fits (|w - v| + 1) = true)
    (hle : (d.union e).cardinality ≤ countLimit) :
    (d.union e).size + (d.inter e).size = d.size + e.size := by
  have hunion := h.union_selects he.toValid hinner
  have hinter := h.inter_selects he.toValid (roomFor_of_inner hinner)
  have hadd := h.cardinality_union_add_inter he.toValid hinner
  have hdistance : ∀ v ∈ d.union e, ∀ w ∈ d.union e, v ≤ w → t.fits (w - v + 1) = true := by
    intro v hv w hw hvw
    rcases (hunion.mem v).mp hv with hv | hv <;> rcases (hunion.mem w).mp hw with hw | hw
    · exact h.distance v hv w hw hvw
    · have hfit := hacross v hv w hw
      rwa [abs_of_nonneg (by omega)] at hfit
    · have hfit := hacross w hw v hv
      rwa [abs_sub_comm, abs_of_nonneg (by omega)] at hfit
    · exact he.distance v hv w hw hvw
  have hin : ∀ v ∈ d.inter e, v ∈ d := fun v hv => ((hinter.mem v).mp hv).1
  have hpart := cardinality_le_of_subset hinter.valid.consistent h.consistent hin
  have hleft := cardinality_le_of_subset h.consistent hunion.valid.consistent
    fun v hv => (hunion.mem v).mpr (.inl hv)
  have hright := cardinality_le_of_subset he.consistent hunion.valid.consistent
    fun v hv => (hunion.mem v).mpr (.inr hv)
  rw [size_eq_cardinality hunion.valid.consistent hdistance hle,
    size_eq_cardinality hinter.valid.consistent
      (fun v hv w hw => h.distance v (hin v hv) w (hin w hw)) (by omega),
    size_eq_cardinality h.consistent h.distance (by omega),
    size_eq_cardinality he.consistent he.distance (by omega), hadd]

/-- Every domain is enumerated faithfully in either representation. Its size is the number of values
given as far as counts go, and up to there the sizes of a union and an intersection add up. -/
theorem enumeration_faithful [t.Lawful] (hd : d.Valid) :
    d.Enumerated ∧ (d.Sized → d.size = min countLimit d.values.length ∧
      ∀ e : Domain t, e.Sized → (∀ v ∈ e, t.Inner v) →
        (∀ v ∈ d, ∀ w ∈ e, t.fits (|w - v| + 1) = true) →
        (d.union e).cardinality ≤ countLimit →
        (d.union e).size + (d.inter e).size = d.size + e.size) := by
  refine ⟨hd.enumerated, fun hsized => ⟨?_, fun e he hinner hacross hle => ?_⟩⟩
  · rw [hsized.size_eq, hd.length_values]
  · exact hsized.size_union_add_inter he hinner hacross hle

/-- Intervals and listed values that overlap, touch and leave gaps, in the universe of 32 bits, and
an interval of more values than counts go. -/
theorem enumeration_faithful_mixed :
    (let d : Domain .int32 := .intervals [⟨-3, -1⟩, ⟨4, 4⟩, ⟨6, 9⟩]
      let e : Domain .int32 := .sparse [-4, -1, 0, 4, 5, 20]
      d.Valid ∧ e.Valid ∧ d.Enumerated ∧ e.Enumerated ∧ d.values = [-3, -2, -1, 4, 6, 7, 8, 9] ∧
        e.runs = [⟨-4, -4⟩, ⟨-1, 0⟩, ⟨4, 5⟩, ⟨20, 20⟩] ∧
        (d.union e).size + (d.inter e).size = d.size + e.size ∧
        (d.union e).size = 12 ∧ (d.inter e).size = 2) ∧
      let huge : Domain .integer := .intervals [⟨0, 2 ^ 70⟩]
      huge.Valid ∧ huge.Enumerated ∧ huge.size = countLimit ∧
        huge.size = min countLimit huge.values.length := by
  constructor
  · intro d e
    have hdu : d.InUniverse := by decide
    have heu : e.InUniverse := by decide
    have hd : d.Sized := .of_inUniverse (by decide) hdu nofun
    have he : e.Sized := .of_inUniverse (by decide) heu fun _ => by decide
    obtain ⟨henum, hsizes⟩ := enumeration_faithful hd.toValid
    obtain ⟨henum', -⟩ := enumeration_faithful he.toValid
    have hadd := (hsizes hd).2 e he (fun v hv => (heu v hv).inner) (hdu.fits_across heu) (by decide)
    exact ⟨hd.toValid, he.toValid, henum, henum', by decide, by decide, hadd, by decide, by decide⟩
  · intro huge
    have hhuge : huge.Sized := .of_integer (by decide +kernel) nofun
    obtain ⟨henum, hsize⟩ := enumeration_faithful hhuge.toValid
    exact ⟨hhuge.toValid, henum, by decide +kernel, (hsize hhuge).1⟩

end Domain
end FiniteDomains
