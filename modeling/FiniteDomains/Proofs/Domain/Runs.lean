import FiniteDomains.Domain.Runs
import FiniteDomains.Proofs.Values
import Mathlib.Data.Finset.Card
import Mathlib.Data.Int.Range
import Mathlib.Order.Bounds.Basic

/-! Consistent lists of intervals: operations that cut intervals into pieces keep them consistent,
and a consistent list is determined by the values that it covers. -/
namespace FiniteDomains
variable {t : ValueType}

theorem split_eq_filter {α : Type} {R : α → α → Prop} {l : List α} (h : l.Pairwise R)
    {p : α → Bool} (hp : ∀ a b, R a b → p b = true → p a = true) :
    l.takeWhile p = l.filter p ∧ l.dropWhile p = l.filter fun a => !p a := by
  induction l with
  | nil => exact ⟨rfl, rfl⟩
  | cons a l ih =>
    obtain ⟨hfirst, hrest⟩ := List.pairwise_cons.mp h
    obtain ⟨htake, hdrop⟩ := ih hrest
    by_cases ha : p a = true
    · rw [List.takeWhile_cons_of_pos ha, List.dropWhile_cons_of_pos ha, htake, hdrop,
        List.filter_cons_of_pos ha, List.filter_cons_of_neg (by simpa using ha)]
      exact ⟨rfl, rfl⟩
    · have hnone : ∀ b ∈ a :: l, p b = false := by
        intro b hb
        rcases List.mem_cons.mp hb with rfl | hb
        · simpa using ha
        · simpa using mt (hp a b (hfirst b hb)) ha
      rw [List.takeWhile_cons_of_neg ha, List.dropWhile_cons_of_neg ha]
      constructor
      · symm
        simpa using hnone
      · symm
        simpa using hnone

theorem Interval.mem_iff {r : Interval} {v : Int} : v ∈ r ↔ r.lo ≤ v ∧ v ≤ r.hi := Iff.rfl

@[simp] theorem Interval.mem_mk {lo hi v : Int} : v ∈ (⟨lo, hi⟩ : Interval) ↔ lo ≤ v ∧ v ≤ hi :=
  Iff.rfl

theorem Interval.contains_iff {r : Interval} {v : Int} : r.contains v = true ↔ v ∈ r := by
  simp only [Interval.contains, Bool.and_eq_true, decide_eq_true_eq]
  rfl

def Interval.toFinset (r : Interval) : Finset Int := (Int.range r.lo (r.hi + 1)).toFinset

theorem Interval.mem_toFinset {r : Interval} {v : Int} : v ∈ r.toFinset ↔ v ∈ r := by
  rw [toFinset, List.mem_toFinset, Int.mem_range_iff, Int.lt_add_one_iff]
  rfl

theorem Interval.card_toFinset (r : Interval) : r.toFinset.card = (r.hi + 1 - r.lo).toNat := by
  have hnodup : (Int.range r.lo (r.hi + 1)).Nodup := by
    refine List.nodup_range.map fun m n heq => ?_
    have heq : r.lo + (m : Int) = r.lo + n := heq
    omega
  rw [toFinset, List.toFinset_card_of_nodup hnodup, Int.range, List.length_map, List.length_range]

namespace Runs
variable {r : Interval} {rs qs : List Interval} {lo hi v : Int}

def covered (rs : List Interval) : Set Int := {v | ∃ r ∈ rs, v ∈ r}

theorem mem_covered : v ∈ covered rs ↔ ∃ r ∈ rs, v ∈ r := Iff.rfl

theorem mem_covered_cons : v ∈ covered (r :: rs) ↔ v ∈ r ∨ v ∈ covered rs := by
  simp [covered]

theorem mem_covered_append : v ∈ covered (rs ++ qs) ↔ v ∈ covered rs ∨ v ∈ covered qs := by
  simp only [mem_covered, List.mem_append, or_and_right, exists_or]

instance decidableConsistent : (rs : List Interval) → Decidable (Consistent rs)
  | [] => .isTrue trivial
  | r :: rs =>
    have : Decidable (Consistent rs) := decidableConsistent rs
    inferInstanceAs (Decidable (r.lo ≤ r.hi ∧ (∀ q ∈ rs.head?, r.hi + 1 < q.lo) ∧ _))

theorem consistent_iff : Consistent rs ↔
    (∀ r ∈ rs, r.lo ≤ r.hi) ∧ rs.Pairwise fun r q => r.hi + 1 < q.lo := by
  -- Consistency compares neighbours only, but then any two intervals are apart.
  induction rs with
  | nil => simp [Consistent]
  | cons r rs ih =>
    rw [Consistent, ih, List.forall_mem_cons, List.pairwise_cons]
    constructor
    · rintro ⟨hr, hhead, hwf, hpair⟩
      refine ⟨⟨hr, hwf⟩, ?_, hpair⟩
      cases rs with
      | nil => simp
      | cons q qs =>
        have hq : r.hi + 1 < q.lo := hhead q rfl
        have hwfq := hwf q List.mem_cons_self
        intro p hp
        rcases List.mem_cons.mp hp with rfl | hp
        · exact hq
        · have hqp := (List.pairwise_cons.mp hpair).1 p hp
          omega
    · rintro ⟨⟨hr, hwf⟩, hfar, hpair⟩
      exact ⟨hr, fun q hq => hfar q (List.mem_of_mem_head? hq), hwf, hpair⟩

theorem Consistent.le (h : Consistent rs) (hr : r ∈ rs) : r.lo ≤ r.hi :=
  (consistent_iff.mp h).1 r hr

theorem Consistent.tail (h : Consistent (r :: rs)) : Consistent rs := h.2.2

theorem Consistent.far (h : Consistent (r :: rs)) {q : Interval} (hq : q ∈ rs) :
    r.hi + 1 < q.lo :=
  (List.pairwise_cons.mp (consistent_iff.mp h).2).1 q hq

theorem Consistent.far_covered (h : Consistent (r :: rs)) (hv : v ∈ covered rs) :
    r.hi + 1 < v := by
  obtain ⟨q, hq, hvq⟩ := hv
  have hfar := h.far hq
  have hlo := hvq.1
  omega

theorem Consistent.flatMap (h : Consistent rs) {f : Interval → List Interval}
    (hf : ∀ r ∈ rs, Consistent (f r))
    (hin : ∀ r ∈ rs, ∀ q ∈ f r, r.lo ≤ q.lo ∧ q.hi ≤ r.hi) : Consistent (rs.flatMap f) := by
  obtain ⟨-, hpair⟩ := consistent_iff.mp h
  apply consistent_iff.mpr
  constructor
  · intro q hq
    obtain ⟨r, hr, hq⟩ := List.mem_flatMap.mp hq
    exact (hf r hr).le hq
  · apply List.pairwise_flatMap.mpr
    refine ⟨fun r hr => (consistent_iff.mp (hf r hr)).2, ?_⟩
    refine hpair.imp_of_mem ?_
    intro r r' hr hr' hfar q hq q' hq'
    have hhi := (hin r hr q hq).2
    have hlo := (hin r' hr' q' hq').1
    omega

/-! ### Keeping and dropping a range -/

theorem mem_clip {q : Interval} (h : q ∈ clip lo hi r) :
    q = ⟨max r.lo lo, min r.hi hi⟩ ∧ lo ≤ r.hi ∧ r.lo ≤ hi := by
  simp only [clip] at h
  split at h
  · cases h
  · next hin =>
    cases h
    exact ⟨rfl, by omega, by omega⟩

theorem restrict_eq (lo hi : Int) (rs : List Interval) :
    restrict lo hi rs = rs.flatMap fun r => (clip lo hi r).toList :=
  List.filterMap_eq_flatMap_toList _ _

theorem mem_covered_restrict :
    v ∈ covered (restrict lo hi rs) ↔ v ∈ covered rs ∧ lo ≤ v ∧ v ≤ hi := by
  simp only [mem_covered, restrict, List.mem_filterMap]
  constructor
  · rintro ⟨q, ⟨r, hr, hq⟩, hv⟩
    obtain ⟨rfl, -, -⟩ := mem_clip hq
    rw [Interval.mem_mk] at hv
    exact ⟨⟨r, hr, by rw [Interval.mem_iff]; omega⟩, by omega, by omega⟩
  · rintro ⟨⟨r, hr, hv⟩, hlo, hhi⟩
    rw [Interval.mem_iff] at hv
    refine ⟨⟨max r.lo lo, min r.hi hi⟩, ⟨r, hr, ?_⟩, by rw [Interval.mem_mk]; omega⟩
    rw [clip, if_neg (by omega)]

theorem mem_restrict_bounds {q : Interval} (h : q ∈ restrict lo hi rs) : lo ≤ q.lo ∧ q.hi ≤ hi := by
  obtain ⟨r, -, hq⟩ := List.mem_filterMap.mp h
  obtain ⟨rfl, -, -⟩ := mem_clip hq
  exact ⟨Int.le_max_right _ _, Int.min_le_right _ _⟩

theorem Consistent.restrict (h : Consistent rs) (hle : lo ≤ hi) :
    Consistent (Runs.restrict lo hi rs) := by
  rw [restrict_eq]
  refine h.flatMap ?_ ?_
  · intro r hr
    have hwf := h.le hr
    cases hc : clip lo hi r with
    | none => trivial
    | some q =>
      obtain ⟨rfl, hlo, hhi⟩ := mem_clip hc
      have hpiece : max r.lo lo ≤ min r.hi hi := by omega
      exact ⟨hpiece, by simp, trivial⟩
  · intro r hr q hq
    obtain ⟨rfl, -, -⟩ := mem_clip (Option.mem_toList.mp hq)
    exact ⟨Int.le_max_left _ _, Int.min_le_left _ _⟩

theorem Consistent.inter (h : Consistent rs) (hqs : Consistent qs) :
    Consistent (qs.flatMap fun q => Runs.restrict q.lo q.hi rs) := by
  refine hqs.flatMap ?_ ?_
  · intro q hq
    exact h.restrict (hqs.le hq)
  · intro q _ p hp
    exact mem_restrict_bounds hp

theorem mem_covered_inter :
    v ∈ covered (qs.flatMap fun q => restrict q.lo q.hi rs) ↔ v ∈ covered rs ∧ v ∈ covered qs := by
  have hpiece (q : Interval) :
      v ∈ covered (restrict q.lo q.hi rs) ↔ v ∈ covered rs ∧ q.lo ≤ v ∧ v ≤ q.hi :=
    mem_covered_restrict
  simp only [mem_covered] at hpiece
  simp only [mem_covered, List.mem_flatMap]
  constructor
  · rintro ⟨p, ⟨q, hq, hp⟩, hv⟩
    obtain ⟨hr, hvq⟩ := (hpiece q).mp ⟨p, hp, hv⟩
    exact ⟨hr, q, hq, hvq⟩
  · rintro ⟨hr, q, hq, hvq⟩
    obtain ⟨p, hp, hv⟩ := (hpiece q).mpr ⟨hr, hvq⟩
    exact ⟨p, ⟨q, hq, hp⟩, hv⟩

theorem cut_eq (hfit : ∀ v ∈ r, t.fits v = true) :
    cut t lo hi r =
      if r.hi < lo ∨ hi < r.lo then [r]
      else
        (if r.lo < lo then [⟨r.lo, lo - 1⟩] else [])
          ++ (if hi < r.hi then [⟨hi + 1, r.hi⟩] else []) := by
  -- Values next to a dropped range are values of the interval that is cut, so they fit.
  simp only [cut]
  split
  · rfl
  · next hin =>
    congr 1
    · split
      · rw [ValueType.pred_eq (hfit _ ⟨by omega, by omega⟩)]
      · rfl
    · split
      · rw [ValueType.succ_eq (hfit _ ⟨by omega, by omega⟩)]
      · rfl

theorem cut_consistent (hfit : ∀ v ∈ r, t.fits v = true) (hle : lo ≤ hi) (hr : r.lo ≤ r.hi) :
    Consistent (cut t lo hi r) ∧ ∀ q ∈ cut t lo hi r, r.lo ≤ q.lo ∧ q.hi ≤ r.hi := by
  rw [cut_eq hfit]
  split
  · simp [Consistent, hr]
  · split <;> split <;> simp [Consistent] <;> omega

theorem mem_cut (hfit : ∀ v ∈ r, t.fits v = true) (hle : lo ≤ hi) :
    (∃ q ∈ cut t lo hi r, v ∈ q) ↔ v ∈ r ∧ ¬(lo ≤ v ∧ v ≤ hi) := by
  rw [cut_eq hfit, Interval.mem_iff]
  split
  · simp [Interval.mem_iff]
    omega
  · split <;> split <;> simp <;> omega

theorem Consistent.erase (h : Consistent rs) (hfit : ∀ v ∈ covered rs, t.fits v = true)
    (hle : lo ≤ hi) : Consistent (Runs.erase t lo hi rs) := by
  have hfits (r) (hr : r ∈ rs) (v) (hv : v ∈ r) : t.fits v = true := hfit v ⟨r, hr, hv⟩
  refine h.flatMap ?_ ?_
  · intro r hr
    exact (cut_consistent (hfits r hr) hle (h.le hr)).1
  · intro r hr
    exact (cut_consistent (hfits r hr) hle (h.le hr)).2

theorem mem_covered_erase (hfit : ∀ v ∈ covered rs, t.fits v = true) (hle : lo ≤ hi) :
    v ∈ covered (erase t lo hi rs) ↔ v ∈ covered rs ∧ ¬(lo ≤ v ∧ v ≤ hi) := by
  simp only [mem_covered, erase, List.mem_flatMap]
  constructor
  · rintro ⟨q, ⟨r, hr, hq⟩, hv⟩
    obtain ⟨hvr, hout⟩ := (mem_cut (fun v hv => hfit v ⟨r, hr, hv⟩) hle).mp ⟨q, hq, hv⟩
    exact ⟨⟨r, hr, hvr⟩, hout⟩
  · rintro ⟨⟨r, hr, hvr⟩, hout⟩
    obtain ⟨q, hq, hv⟩ := (mem_cut (fun v hv => hfit v ⟨r, hr, hv⟩) hle).mpr ⟨hvr, hout⟩
    exact ⟨q, ⟨r, hr, hq⟩, hv⟩

/-! ### Moving -/

def translate (offset : Int) (rs : List Interval) : List Interval :=
  rs.map fun r => ⟨r.lo + offset, r.hi + offset⟩

theorem shift_eq {offset : Int} (h : Consistent rs)
    (hfit : ∀ v ∈ covered rs, t.fits (v + offset) = true) :
    shift t offset rs = .ok (translate offset rs) := by
  induction rs with
  | nil => rfl
  | cons r rs ih =>
    have hle := h.1
    have hlo := hfit r.lo (mem_covered_cons.mpr (.inl ⟨Int.le_refl _, hle⟩))
    have hhi := hfit r.hi (mem_covered_cons.mpr (.inl ⟨hle, Int.le_refl _⟩))
    have hrest := ih h.tail fun v hv => hfit v (mem_covered_cons.mpr (.inr hv))
    simp only [shift, Interval.make, ValueType.unchecked_eq hlo, ValueType.unchecked_eq hhi, hrest]
    rw [if_pos (by omega)]
    rfl

theorem Consistent.translate (h : Consistent rs) (offset : Int) :
    Consistent (Runs.translate offset rs) := by
  obtain ⟨hwf, hpair⟩ := consistent_iff.mp h
  apply consistent_iff.mpr
  constructor
  · intro q hq
    obtain ⟨r, hr, rfl⟩ := List.mem_map.mp hq
    have hle := hwf r hr
    simp only
    omega
  · apply List.pairwise_map.mpr
    refine hpair.imp ?_
    intro r q hfar
    simp only
    omega

theorem mem_covered_translate {offset : Int} :
    v ∈ covered (translate offset rs) ↔ v - offset ∈ covered rs := by
  simp only [mem_covered, translate, List.mem_map]
  constructor
  · rintro ⟨_, ⟨r, hr, rfl⟩, hv⟩
    rw [Interval.mem_mk] at hv
    exact ⟨r, hr, by omega, by omega⟩
  · rintro ⟨r, hr, hv⟩
    rw [Interval.mem_iff] at hv
    refine ⟨_, ⟨r, hr, rfl⟩, ?_⟩
    rw [Interval.mem_mk]
    omega

/-! ### Ends -/

theorem min?_isLeast {m : Int} (h : Consistent rs) (hm : min? rs = some m) :
    IsLeast (covered rs) m := by
  cases rs with
  | nil => cases hm
  | cons r rs =>
    cases hm
    refine ⟨⟨r, List.mem_cons_self, Int.le_refl _, h.1⟩, ?_⟩
    intro v hv
    rcases mem_covered_cons.mp hv with hv | hv
    · exact hv.1
    · have hfar := h.far_covered hv
      have hle := h.1
      omega

theorem max?_isGreatest {m : Int} (h : Consistent rs) (hm : max? rs = some m) :
    IsGreatest (covered rs) m := by
  induction rs generalizing m with
  | nil => cases hm
  | cons r rs ih =>
    cases rs with
    | nil =>
      cases hm
      refine ⟨⟨r, List.mem_cons_self, h.1, Int.le_refl _⟩, ?_⟩
      intro v hv
      rcases mem_covered_cons.mp hv with hv | hv
      · exact hv.2
      · obtain ⟨q, hq, -⟩ := hv
        cases hq
    | cons q qs =>
      obtain ⟨hmem, hup⟩ := ih h.tail hm
      refine ⟨mem_covered_cons.mpr (.inr hmem), ?_⟩
      intro v hv
      rcases mem_covered_cons.mp hv with hv | hv
      · have hfar := h.far_covered hmem
        have hhi := hv.2
        omega
      · exact hup hv

/-! ### Canonicity -/

theorem Consistent.head_eq {q : Interval} (h : Consistent (r :: rs)) (hq : Consistent (q :: qs))
    (heq : covered (r :: rs) = covered (q :: qs)) : r = q := by
  -- The end of the first interval is its last value before a missing one.
  have hlo : r.lo = q.lo := by
    have hr := min?_isLeast h rfl
    rw [heq] at hr
    exact hr.unique (min?_isLeast hq rfl)
  have hend {r q : Interval} {rs qs : List Interval} (h : Consistent (r :: rs))
      (hq : Consistent (q :: qs)) (heq : covered (r :: rs) = covered (q :: qs))
      (hlo : r.lo = q.lo) : q.hi ≤ r.hi := by
    by_contra hlt
    have hle := h.1
    have hmem : r.hi + 1 ∈ covered (r :: rs) := by
      rw [heq]
      exact mem_covered_cons.mpr (.inl ⟨by omega, by omega⟩)
    rcases mem_covered_cons.mp hmem with hv | hv
    · have hhi := hv.2
      omega
    · have hfar := h.far_covered hv
      omega
  have hhi : r.hi = q.hi := Int.le_antisymm (hend hq h heq.symm hlo.symm) (hend h hq heq hlo)
  cases r
  cases q
  simp_all

theorem Consistent.covered_tail (h : Consistent (r :: rs)) :
    covered rs = {v ∈ covered (r :: rs) | r.hi < v} := by
  ext v
  constructor
  · intro hv
    have hfar := h.far_covered hv
    exact ⟨mem_covered_cons.mpr (.inr hv), by omega⟩
  · rintro ⟨hv, hlt⟩
    rcases mem_covered_cons.mp hv with hv | hv
    · have hhi := hv.2
      omega
    · exact hv

theorem Consistent.eq_of_covered (h : Consistent rs) (hqs : Consistent qs)
    (heq : covered rs = covered qs) : rs = qs := by
  induction rs generalizing qs with
  | nil =>
    cases qs with
    | nil => rfl
    | cons q qs =>
      have hmem : q.lo ∈ covered [] := heq ▸ mem_covered_cons.mpr (.inl ⟨Int.le_refl _, hqs.1⟩)
      obtain ⟨r, hr, -⟩ := hmem
      cases hr
  | cons r rs ih =>
    cases qs with
    | nil =>
      have hmem : r.lo ∈ covered [] := heq ▸ mem_covered_cons.mpr (.inl ⟨Int.le_refl _, h.1⟩)
      obtain ⟨q, hq, -⟩ := hmem
      cases hq
    | cons q qs =>
      obtain rfl := h.head_eq hqs heq
      have htail : covered rs = covered qs := by rw [h.covered_tail, hqs.covered_tail, heq]
      rw [ih h.tail hqs.tail htail]

/-! ### Looking for a range -/

theorem mem_of_reaching (hr : reaching? v rs = some r) : r ∈ rs ∧ v ≤ r.hi := by
  rw [reaching?] at hr
  exact ⟨List.mem_of_find?_eq_some hr, by simpa using List.find?_some hr⟩

theorem Consistent.exists_reaching {w : Int} (h : Consistent rs) (hw : w ∈ covered rs)
    (hle : v ≤ w) : ∃ r, reaching? v rs = some r ∧ r.lo ≤ w := by
  -- No value from `v` on lies below the first interval that reaches `v`.
  induction rs with
  | nil => simp [covered] at hw
  | cons r rs ih =>
    by_cases hreach : v ≤ r.hi
    · refine ⟨r, List.find?_cons_of_pos (decide_eq_true hreach), ?_⟩
      rcases mem_covered_cons.mp hw with hw | hw
      · exact hw.1
      · have hfar := h.far_covered hw
        have hwf := h.1
        omega
    · rcases mem_covered_cons.mp hw with hw | hw
      · have hend := hw.2
        omega
      · obtain ⟨q, hq, hqle⟩ := ih h.tail hw
        exact ⟨q, (List.find?_cons_of_neg (by simpa using hreach)).trans hq, hqle⟩

theorem Consistent.succ_hi_not_mem (h : Consistent rs) (hr : r ∈ rs) : r.hi + 1 ∉ covered rs := by
  induction rs with
  | nil => cases hr
  | cons q rs ih =>
    rw [mem_covered_cons, Interval.mem_iff]
    rcases List.mem_cons.mp hr with rfl | hr
    · rintro (hv | hv)
      · omega
      · exact absurd (h.far_covered hv) (Int.lt_irrefl _)
    · have hfar := h.far hr
      have hle := h.tail.le hr
      rintro (hv | hv)
      · omega
      · exact ih h.tail hr hv

theorem Consistent.pred_lo_not_mem (h : Consistent rs) (hr : r ∈ rs) : r.lo - 1 ∉ covered rs := by
  induction rs with
  | nil => cases hr
  | cons q rs ih =>
    rw [mem_covered_cons, Interval.mem_iff]
    rcases List.mem_cons.mp hr with rfl | hr
    · rintro (hv | hv)
      · omega
      · have hfar := h.far_covered hv
        have hle := h.1
        omega
    · have hfar := h.far hr
      rintro (hv | hv)
      · omega
      · exact ih h.tail hr hv

theorem coversRange_iff (h : Consistent rs) (hle : lo ≤ hi) :
    coversRange lo hi rs = true ↔ ∀ v, lo ≤ v → v ≤ hi → v ∈ covered rs := by
  -- A range that starts in an interval and leaves it has the missing value behind it.
  simp only [coversRange, Option.any_eq_true, Bool.and_eq_true, decide_eq_true_eq]
  constructor
  · rintro ⟨r, hr, hlo, hhi⟩ v hlov hvhi
    exact ⟨r, (mem_of_reaching hr).1, by omega, by omega⟩
  · intro hall
    obtain ⟨r, hr, hlo⟩ := h.exists_reaching (hall lo (Int.le_refl _) hle) (Int.le_refl _)
    obtain ⟨hmem, hreach⟩ := mem_of_reaching hr
    refine ⟨r, hr, hlo, ?_⟩
    by_contra hlt
    exact h.succ_hi_not_mem hmem (hall _ (by omega) (by omega))

theorem meetsRange_iff (h : Consistent rs) (hle : lo ≤ hi) :
    meetsRange lo hi rs = true ↔ ∃ v ∈ covered rs, lo ≤ v ∧ v ≤ hi := by
  simp only [meetsRange, Option.any_eq_true, decide_eq_true_eq]
  constructor
  · rintro ⟨r, hr, hrhi⟩
    obtain ⟨hmem, hreach⟩ := mem_of_reaching hr
    have hwf := h.le hmem
    exact ⟨max lo r.lo, ⟨r, hmem, Int.le_max_right _ _, by omega⟩, by omega, by omega⟩
  · rintro ⟨v, hv, hlo, hhi⟩
    obtain ⟨r, hr, hrlo⟩ := h.exists_reaching hv hlo
    exact ⟨r, hr, by omega⟩

/-! ### Counting -/

def toFinset : List Interval → Finset Int
  | [] => ∅
  | r :: rs => r.toFinset ∪ toFinset rs

theorem mem_toFinset : v ∈ toFinset rs ↔ v ∈ covered rs := by
  induction rs with
  | nil => simp [toFinset, covered]
  | cons r rs ih => rw [toFinset, Finset.mem_union, Interval.mem_toFinset, ih, mem_covered_cons]

theorem Consistent.card_toFinset (h : Consistent rs) : (toFinset rs).card = cardinality rs := by
  induction rs with
  | nil => rfl
  | cons r rs ih =>
    have hdisj : Disjoint r.toFinset (toFinset rs) := by
      rw [Finset.disjoint_left]
      intro v hv hvs
      have hfar := h.far_covered (mem_toFinset.mp hvs)
      have hhi := (Interval.mem_toFinset.mp hv).2
      omega
    rw [toFinset, Finset.card_union_of_disjoint hdisj, Interval.card_toFinset, ih h.tail]
    rfl

end Runs
end FiniteDomains
