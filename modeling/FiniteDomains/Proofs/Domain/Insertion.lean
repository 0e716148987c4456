import FiniteDomains.Proofs.Domain.Points

/-! Adding a range to a consistent list of intervals or of values. The intervals that the range
touches stand between those below and those above it, and become one interval with it. -/
namespace FiniteDomains
variable {t : ValueType} {lo hi v : Int}

namespace Interval
variable {r : Interval}

/-- A range that is not inverted and has a value on either side. -/
@[mk_iff]
structure Roomy (t : ValueType) (r : Interval) : Prop where
  le : r.lo ≤ r.hi
  lo : t.Inner r.lo
  hi : t.Inner r.hi

instance (t : ValueType) (r : Interval) : Decidable (r.Roomy t) :=
  decidable_of_iff _ (roomy_iff t r).symm

theorem Roomy.fits [t.Lawful] (h : r.Roomy t) (hlo : r.lo - 1 ≤ v) (hhi : v ≤ r.hi + 1) :
    t.fits v = true :=
  ValueType.Lawful.fits_between _ _ v h.lo.1 h.hi.2 hlo hhi

theorem Roomy.inner [t.Lawful] (h : r.Roomy t) (hv : v ∈ r) : t.Inner v := by
  obtain ⟨hlo, hhi⟩ := hv
  exact ⟨h.fits (by omega) (by omega), h.fits (by omega) (by omega)⟩

end Interval

namespace Runs
variable {r : Interval} {rs : List Interval}

theorem Consistent.ascending (h : Consistent rs) :
    rs.Pairwise fun r q => r.lo < q.lo ∧ r.hi < q.hi := by
  obtain ⟨hwf, hpair⟩ := consistent_iff.mp h
  refine hpair.imp_of_mem ?_
  intro r q hr hq hfar
  have hrle := hwf r hr
  have hqle := hwf q hq
  omega

theorem Consistent.sublist {qs : List Interval} (h : Consistent rs) (hs : qs.Sublist rs) :
    Consistent qs := by
  obtain ⟨hwf, hpair⟩ := consistent_iff.mp h
  exact consistent_iff.mpr ⟨fun q hq => hwf q (hs.subset hq), hpair.sublist hs⟩

/-! ### Merging -/

theorem span_bounds (lo hi : Int) (rs : List Interval) :
    (span lo hi rs).lo ≤ lo ∧ hi ≤ (span lo hi rs).hi := by
  cases rs with
  | nil => exact ⟨Int.le_refl _, Int.le_refl _⟩
  | cons r rs => exact ⟨Int.min_le_left _ _, Int.le_max_left _ _⟩

theorem insertChecked_eq (hle : lo ≤ hi) (rs : List Interval) :
    insertChecked t lo hi rs = .ok (insert t lo hi rs) := by
  have hbounds := span_bounds lo hi (touching t lo hi rs)
  rw [insertChecked, Interval.make, if_pos (by omega)]
  rfl

theorem span_cons (h : Consistent (r :: rs)) (lo hi : Int) :
    ∃ m g, IsLeast (covered (r :: rs)) m ∧ IsGreatest (covered (r :: rs)) g ∧
      span lo hi (r :: rs) = ⟨min lo m, max hi g⟩ := by
  have hmax : max? (r :: rs) = some (rs.getLastD r).hi := by
    rw [max?, List.getLast?_cons, Option.map_some, List.getLastD_eq_getLast?]
  exact ⟨r.lo, _, min?_isLeast h rfl, max?_isGreatest h hmax, rfl⟩

theorem mem_span (h : Consistent rs) (htouch : ∀ r ∈ rs, lo - 1 ≤ r.hi ∧ r.lo ≤ hi + 1) :
    v ∈ span lo hi rs ↔ v ∈ covered rs ∨ lo ≤ v ∧ v ≤ hi := by
  cases rs with
  | nil => simp [span, covered]
  | cons r rs =>
    obtain ⟨m, g, ⟨⟨p, hp, hmp⟩, hleast⟩, ⟨⟨q, hq, hgq⟩, hgreatest⟩, hspan⟩ := span_cons h lo hi
    have htp := htouch p hp
    have htq := htouch q hq
    rw [Interval.mem_iff] at hmp hgq
    rw [hspan, Interval.mem_mk]
    constructor
    · rintro ⟨hlo, hhi⟩
      by_cases hbelow : v < lo
      · exact .inl ⟨p, hp, by omega, by omega⟩
      · by_cases habove : hi < v
        · exact .inl ⟨q, hq, by omega, by omega⟩
        · exact .inr ⟨by omega, by omega⟩
    · rintro (hv | ⟨hlo, hhi⟩)
      · have hm := hleast hv
        have hg := hgreatest hv
        omega
      · omega

/-! ### The three parts -/

theorem parts (t : ValueType) (lo hi : Int) (rs : List Interval) :
    below t lo rs ++ (touching t lo hi rs ++ above t lo hi rs) = rs := by
  rw [touching, above, List.takeWhile_append_dropWhile, below, notBelow,
    List.takeWhile_append_dropWhile]

theorem mem_below (h : Consistent rs) (hlo : t.fits (lo - 1) = true) :
    r ∈ below t lo rs ↔ r ∈ rs ∧ r.hi < lo - 1 := by
  rw [below, ValueType.pred_eq hlo,
    (split_eq_filter h.ascending (by simp only [decide_eq_true_eq]; omega)).1]
  simp

theorem mem_notBelow (h : Consistent rs) (hlo : t.fits (lo - 1) = true) :
    r ∈ notBelow t lo rs ↔ r ∈ rs ∧ lo - 1 ≤ r.hi := by
  rw [notBelow, ValueType.pred_eq hlo,
    (split_eq_filter h.ascending (by simp only [decide_eq_true_eq]; omega)).2]
  simp

theorem Consistent.notBelow (h : Consistent rs) (t : ValueType) (lo : Int) :
    Consistent (Runs.notBelow t lo rs) :=
  h.sublist (List.dropWhile_sublist _)

theorem mem_touching (h : Consistent rs) (hlo : t.fits (lo - 1) = true)
    (hhi : t.fits (hi + 1) = true) :
    r ∈ touching t lo hi rs ↔ r ∈ rs ∧ lo - 1 ≤ r.hi ∧ r.lo ≤ hi + 1 := by
  have hrest := (h.notBelow t lo).ascending
  rw [touching, ValueType.succ_eq hhi,
    (split_eq_filter hrest (by simp only [decide_eq_true_eq]; omega)).1]
  simp only [List.mem_filter, mem_notBelow h hlo, decide_eq_true_eq]
  exact and_assoc

theorem hi_lt_of_mem_above (h : Consistent rs) (hhi : t.fits (hi + 1) = true)
    (hr : r ∈ above t lo hi rs) : hi + 1 < r.lo := by
  have hrest := (h.notBelow t lo).ascending
  rw [above, ValueType.succ_eq hhi,
    (split_eq_filter hrest (by simp only [decide_eq_true_eq]; omega)).2] at hr
  simpa using (List.mem_filter.mp hr).2

theorem Consistent.touching (h : Consistent rs) (t : ValueType) (lo hi : Int) :
    Consistent (Runs.touching t lo hi rs) :=
  (h.notBelow t lo).sublist (List.takeWhile_sublist _)

/-! ### Adding a range -/

theorem mem_covered_insert (h : Consistent rs) (hlo : t.fits (lo - 1) = true)
    (hhi : t.fits (hi + 1) = true) :
    v ∈ covered (insert t lo hi rs) ↔ v ∈ covered rs ∨ lo ≤ v ∧ v ≤ hi := by
  have hspan : v ∈ span lo hi (touching t lo hi rs) ↔
      v ∈ covered (touching t lo hi rs) ∨ lo ≤ v ∧ v ≤ hi :=
    mem_span (h.touching t lo hi) fun r hr => ((mem_touching h hlo hhi).mp hr).2
  rw [← parts t lo hi rs, mem_covered_append, mem_covered_append, parts, insert,
    mem_covered_append, mem_covered_cons, hspan]
  tauto

theorem Consistent.insert (h : Consistent rs) (hle : lo ≤ hi) (hlo : t.fits (lo - 1) = true)
    (hhi : t.fits (hi + 1) = true) : Consistent (Runs.insert t lo hi rs) := by
  obtain ⟨hwf, hpair⟩ := consistent_iff.mp h
  have hbounds := span_bounds lo hi (Runs.touching t lo hi rs)
  have hspan {v : Int} (hv : v ∈ span lo hi (Runs.touching t lo hi rs)) :
      v ∈ covered (Runs.touching t lo hi rs) ∨ lo ≤ v ∧ v ≤ hi :=
    (mem_span (h.touching t lo hi) fun r hr => ((mem_touching h hlo hhi).mp hr).2).mp hv
  rw [← parts t lo hi rs, List.pairwise_append, List.pairwise_append] at hpair
  obtain ⟨hbelow, ⟨-, habove, htouchAbove⟩, hbelowRest⟩ := hpair
  have hwfParts {q : Interval} (hq : q ∈ below t lo rs ++ (Runs.touching t lo hi rs
      ++ above t lo hi rs)) : q.lo ≤ q.hi := hwf q (parts t lo hi rs ▸ hq)
  apply consistent_iff.mpr
  constructor
  · intro q hq
    rcases List.mem_append.mp hq with hq | hq
    · exact hwfParts (List.mem_append_left _ hq)
    · rcases List.mem_cons.mp hq with rfl | hq
      · omega
      · exact hwfParts (List.mem_append_right _ (List.mem_append_right _ hq))
  · refine List.pairwise_append.mpr ⟨hbelow, List.pairwise_cons.mpr ⟨?_, habove⟩, ?_⟩
    · intro a ha
      have hfar := hi_lt_of_mem_above h hhi ha
      rcases hspan ⟨by omega, Int.le_refl _⟩ with ⟨q, hq, hend⟩ | hend
      · have hgap := htouchAbove q hq a ha
        have hhi := hend.2
        omega
      · omega
    · intro b hb q hq
      rcases List.mem_cons.mp hq with rfl | hq
      · have hfar := ((mem_below h hlo).mp hb).2
        rcases hspan ⟨Int.le_refl _, by omega⟩ with ⟨q, hq, hend⟩ | hend
        · have hgap := hbelowRest b hb q (List.mem_append_left _ hq)
          have hlo := hend.1
          omega
        · omega
      · exact hbelowRest b hb q (List.mem_append_right _ hq)

end Runs

namespace Points
variable {vs : List Int}

theorem mem_insert (h : Consistent vs) (hle : lo ≤ hi)
    (hfit : ∀ w, lo ≤ w → w ≤ hi → t.fits w = true) :
    v ∈ insert t lo hi vs ↔ v ∈ vs ∨ lo ≤ v ∧ v ≤ hi := by
  have hrange : v ∈ t.ascending lo (hi - lo).toNat ↔ lo ≤ v ∧ v ≤ lo + (hi - lo).toNat :=
    ValueType.mem_ascending fun w hlo hhi => hfit w (by omega) (by omega)
  rw [insert, List.mem_append, List.mem_append, mem_below h, hrange, mem_above h hle]
  constructor
  · rintro ((⟨hv, -⟩ | hin) | ⟨hv, -⟩)
    · exact .inl hv
    · exact .inr (by omega)
    · exact .inl hv
  · rintro (hv | hin)
    · by_cases hlo : v < lo
      · exact .inl (.inl ⟨hv, hlo⟩)
      · by_cases hhi : hi < v
        · exact .inr ⟨hv, hhi⟩
        · exact .inl (.inr (by omega))
    · exact .inl (.inr (by omega))

theorem Consistent.insert (h : Consistent vs) (hle : lo ≤ hi)
    (hfit : ∀ w, lo ≤ w → w ≤ hi → t.fits w = true) : Consistent (Points.insert t lo hi vs) := by
  have hrange (w : Int) (hlo : lo < w) (hhi : w ≤ lo + (hi - lo).toNat) : t.fits w = true :=
    hfit w (by omega) (by omega)
  have hends {w : Int} (hw : w ∈ t.ascending lo (hi - lo).toNat) : lo ≤ w ∧ w ≤ hi := by
    have hbounds := (ValueType.mem_ascending hrange).mp hw
    omega
  have hbelow : Consistent (below lo vs) := h.sublist (List.takeWhile_sublist _)
  have habove : Consistent (above lo hi vs) := (h.notBelow lo).sublist (List.dropWhile_sublist _)
  apply consistent_iff.mpr
  refine List.pairwise_append.mpr ⟨List.pairwise_append.mpr ⟨consistent_iff.mp hbelow,
    ValueType.ascending_pairwise hrange, ?_⟩, consistent_iff.mp habove, ?_⟩
  · intro b hb w hw
    exact Int.lt_of_lt_of_le ((mem_below h).mp hb).2 (hends hw).1
  · intro b hb a ha
    have hlt := ((mem_above h hle).mp ha).2
    rcases List.mem_append.mp hb with hb | hb
    · have hlow := ((mem_below h).mp hb).2
      omega
    · have hhigh := (hends hb).2
      omega

theorem insertChecked_eq (hle : lo ≤ hi) (vs : List Int) :
    insertChecked t lo hi vs = .ok (insert t lo hi vs) := by
  rw [insertChecked, if_pos hle]

/-! ### Adding values one by one -/

theorem mem_insertValue {w : Int} : w ∈ insertValue v vs ↔ w = v ∨ w ∈ vs := by
  induction vs with
  | nil => simp [insertValue]
  | cons u us ih =>
    simp only [insertValue]
    split
    · rw [List.mem_cons]
    · split
      · next heq => simp [heq]
      · rw [List.mem_cons, ih, List.mem_cons]
        exact or_left_comm

theorem Consistent.insertValue (h : Consistent vs) (v : Int) :
    Consistent (Points.insertValue v vs) := by
  induction vs with
  | nil => exact ⟨by simp, trivial⟩
  | cons u us ih =>
    simp only [Points.insertValue]
    split
    · next hlt => exact ⟨by simpa using hlt, h⟩
    · split
      · exact h
      · apply consistent_iff.mpr
        refine List.pairwise_cons.mpr ⟨fun w hw => ?_, consistent_iff.mp (ih h.2)⟩
        rcases mem_insertValue.mp hw with rfl | hw
        · omega
        · exact h.lt hw

theorem mem_ofList : v ∈ ofList vs ↔ v ∈ vs := by
  induction vs with
  | nil => rfl
  | cons u us ih =>
    rw [ofList, List.foldr_cons, mem_insertValue, List.mem_cons]
    exact or_congr_right ih

theorem ofList_consistent (vs : List Int) : Consistent (ofList vs) := by
  induction vs with
  | nil => trivial
  | cons u us ih => exact Consistent.insertValue ih u

end Points
end FiniteDomains
