import FiniteDomains.Proofs.Domain.Basic
import FiniteDomains.Proofs.Domain.Insertion

/-! Adding a range by positions. Two searches find where the intervals that the range touches begin
and end, and the interval that they become together is put in their place. The two positions cross
for some inverted ranges, of which no interval can be made. Any other inverted range touches one
interval at most: that one takes it in and stays as it is. -/
namespace FiniteDomains
variable {t : ValueType} {lo hi : Int}

namespace Runs
variable {rs : List Interval} {r : Interval} {first last : Nat} {v : Int}

def reachingIdx (v : Int) (rs : List Interval) : Nat := rs.findIdx fun r => decide (v ≤ r.hi)

def beyondIdx (v : Int) (rs : List Interval) : Nat := rs.findIdx fun r => decide (v < r.lo)

theorem beyondIdx_le : beyondIdx v rs ≤ rs.length := List.findIdx_le_length

/-- The interval from `[lo, hi]` to the ends of the intervals from position `first` up to `last`. -/
def spanAt (lo hi : Int) (first last : Nat) (rs : List Interval) (hlast : last ≤ rs.length) :
    Interval :=
  if h : first < last then ⟨min lo rs[first].lo, max hi rs[last - 1].hi⟩ else ⟨lo, hi⟩

/-- Puts one interval in the place of those from position `first` up to `last`. There is no result
if the positions cross or leave the list. -/
def splice (first last : Nat) (r : Interval) (rs : List Interval) : Option (List Interval) :=
  if first ≤ last ∧ last ≤ rs.length then some (rs.take first ++ r :: rs.drop last) else none

/-- As `insertChecked`, by positions. The one interval is made before it is put into the list. -/
def insertSpliced (t : ValueType) (lo hi : Int) (rs : List Interval) :
    Except Fault (Option (List Interval)) :=
  let first := reachingIdx (t.pred lo) rs
  let last := beyondIdx (t.succ hi) rs
  let merged := spanAt lo hi first last rs beyondIdx_le
  (Interval.make merged.lo merged.hi).map fun r => splice first last r rs

/-! ### The parts by their positions -/

theorem lt_lo_beyondIdx (hlt : beyondIdx v rs < rs.length) : v < rs[beyondIdx v rs].lo :=
  of_decide_eq_true (List.findIdx_getElem (w := hlt))

theorem beyondIdx_eq_add (hle : first ≤ beyondIdx v rs) :
    beyondIdx v rs = first + beyondIdx v (rs.drop first) := by
  have hlength : (rs.take first).length = first := List.length_take_of_le (hle.trans beyondIdx_le)
  have hsplit : beyondIdx v (rs.take first ++ rs.drop first) = _ := List.findIdx_append
  rw [List.take_append_drop, hlength] at hsplit
  rw [hsplit] at hle ⊢
  split at hle
  · omega
  · next hfar => exact (if_neg hfar).trans (Nat.add_comm _ _)

theorem below_eq_take (t : ValueType) (lo : Int) (rs : List Interval) :
    below t lo rs = rs.take (reachingIdx (t.pred lo) rs) := by
  simp only [below, reachingIdx, List.takeWhile_eq_take_findIdx_not, ← decide_not, Int.not_lt]

theorem notBelow_eq_drop (t : ValueType) (lo : Int) (rs : List Interval) :
    notBelow t lo rs = rs.drop (reachingIdx (t.pred lo) rs) := by
  simp only [notBelow, reachingIdx, List.dropWhile_eq_drop_findIdx_not, ← decide_not, Int.not_lt]

theorem touching_eq_take (hle : reachingIdx (t.pred lo) rs ≤ beyondIdx (t.succ hi) rs) :
    touching t lo hi rs = (rs.drop (reachingIdx (t.pred lo) rs)).take
      (beyondIdx (t.succ hi) rs - reachingIdx (t.pred lo) rs) := by
  rw [beyondIdx_eq_add hle, Nat.add_sub_cancel_left]
  simp only [touching, notBelow_eq_drop, beyondIdx, List.takeWhile_eq_take_findIdx_not,
    ← decide_not, Int.not_le]

theorem above_eq_drop (hle : reachingIdx (t.pred lo) rs ≤ beyondIdx (t.succ hi) rs) :
    above t lo hi rs = rs.drop (beyondIdx (t.succ hi) rs) := by
  rw [beyondIdx_eq_add hle, ← List.drop_drop]
  simp only [above, notBelow_eq_drop, beyondIdx, List.dropWhile_eq_drop_findIdx_not, ← decide_not,
    Int.not_le]

theorem span_of_ne_nil (lo hi : Int) (hne : rs ≠ []) :
    span lo hi rs = ⟨min lo (rs.head hne).lo, max hi (rs.getLast hne).hi⟩ := by
  cases rs with
  | nil => exact absurd rfl hne
  | cons r rs => rw [span, List.head_cons, List.getLast_eq_getLastD]

theorem spanAt_eq (lo hi : Int) (first : Nat) (hlast : last ≤ rs.length) :
    spanAt lo hi first last rs hlast = span lo hi ((rs.drop first).take (last - first)) := by
  -- Of the intervals between two positions only those at the ends count.
  rw [spanAt]
  split
  · next hlt =>
    have hlength : ((rs.drop first).take (last - first)).length = last - first :=
      List.length_take_of_le (by rw [List.length_drop]; omega)
    have hne : (rs.drop first).take (last - first) ≠ [] :=
      List.ne_nil_of_length_pos (by omega)
    have hindex : first + (last - first - 1) = last - 1 := by omega
    rw [span_of_ne_nil lo hi hne, List.head_take, List.head_drop]
    simp only [List.getLast_eq_getElem, List.getElem_take, List.getElem_drop, hlength, hindex]
  · next hge => rw [Nat.sub_eq_zero_of_le (by omega), List.take_zero, span]

section
variable (h : Consistent rs) (hlo : t.fits (lo - 1) = true) (hhi : t.fits (hi + 1) = true)
include h hlo hhi

theorem touching_eq_nil_iff :
    touching t lo hi rs = [] ↔ ∀ r ∈ rs, ¬(r.lo ≤ hi + 1 ∧ lo - 1 ≤ r.hi) := by
  rw [List.eq_nil_iff_forall_not_mem]
  simp only [mem_touching h hlo hhi, not_and, and_comm]

theorem touching_inverted (hinv : hi < lo) :
    touching t lo hi rs = [] ∨ ∃ r ∈ rs, touching t lo hi rs = [r] := by
  -- Two intervals leave out a value between them, so only one of them reaches over an inverted
  -- range.
  have hends (r : Interval) (hr : r ∈ touching t lo hi rs) :
      r ∈ rs ∧ lo - 1 ≤ r.hi ∧ r.lo ≤ hi + 1 := (mem_touching h hlo hhi).mp hr
  have hcons := h.touching t lo hi
  match htouch : touching t lo hi rs with
  | [] => exact .inl rfl
  | [r] => exact .inr ⟨r, (hends r (by simp [htouch])).1, rfl⟩
  | r :: q :: _ =>
    have hr := hends r (by simp [htouch])
    have hq := hends q (by simp [htouch])
    rw [htouch] at hcons
    have hfar := hcons.far List.mem_cons_self
    omega

/-- If the positions cross, an interval between them ends below the range and starts above it. Then
the range is inverted and touches no interval. -/
theorem touching_of_crossed (hlt : beyondIdx (t.succ hi) rs < reachingIdx (t.pred lo) rs) :
    hi < lo ∧ touching t lo hi rs = [] := by
  have hlast : beyondIdx (t.succ hi) rs < rs.length := hlt.trans_le List.findIdx_le_length
  obtain ⟨q, hq, hqlo⟩ : ∃ q ∈ below t lo rs, hi + 1 < q.lo := by
    refine ⟨rs[beyondIdx (t.succ hi) rs], ?_, ?_⟩
    · rw [below_eq_take]
      exact List.mem_take_iff_getElem.mpr ⟨_, by omega, rfl⟩
    · rw [← ValueType.succ_eq hhi]
      exact lt_lo_beyondIdx hlast
  obtain ⟨hmem, hqhi⟩ := (mem_below h hlo).mp hq
  have hwf := h.le hmem
  refine ⟨by omega, List.eq_nil_iff_forall_not_mem.mpr fun r hr => ?_⟩
  -- an interval that the range touches lies behind the one in between, which starts too high
  have hpair := (consistent_iff.mp h).2
  rw [← parts t lo hi rs, List.pairwise_append] at hpair
  have hfar := hpair.2.2 q hq r (List.mem_append_left _ hr)
  have htouch := ((mem_touching h hlo hhi).mp hr).2
  omega

theorem length_touching :
    (touching t lo hi rs).length = beyondIdx (t.succ hi) rs - reachingIdx (t.pred lo) rs := by
  by_cases hle : reachingIdx (t.pred lo) rs ≤ beyondIdx (t.succ hi) rs
  · have hlast : beyondIdx (t.succ hi) rs ≤ rs.length := beyondIdx_le
    rw [touching_eq_take hle, List.length_take_of_le (by rw [List.length_drop]; omega)]
  · rw [(touching_of_crossed h hlo hhi (by omega)).2, List.length_nil]
    omega

end

/-! ### Adding a range -/

theorem insertChecked_of_apart (hinv : hi < lo) (hnone : touching t lo hi rs = []) :
    insertChecked t lo hi rs = .error (.malformedInterval lo hi) := by
  rw [insertChecked, hnone, span, Interval.make, if_neg (Int.not_le.mpr hinv)]

theorem insertChecked_of_absorbed (hinv : hi < lo) (hle : r.lo ≤ r.hi) (hlo : lo - 1 ≤ r.hi)
    (hhi : r.lo ≤ hi + 1) (hone : touching t lo hi rs = [r]) :
    insertChecked t lo hi rs = .ok rs := by
  have hspan : span lo hi [r] = r := by
    rw [span, List.getLastD_nil, min_eq_right (by omega), max_eq_right (by omega)]
  have hparts := parts t lo hi rs
  rw [hone, List.singleton_append] at hparts
  rw [insertChecked, hone, hspan, Interval.make, if_pos hle]
  exact congrArg Except.ok hparts

/-- Adding by positions is the same for every range, so where an interval is put into the list the
positions never cross. -/
theorem insertSpliced_eq (h : Consistent rs) (hlo : t.fits (lo - 1) = true)
    (hhi : t.fits (hi + 1) = true) :
    insertSpliced t lo hi rs = (insertChecked t lo hi rs).map some := by
  by_cases hle : reachingIdx (t.pred lo) rs ≤ beyondIdx (t.succ hi) rs
  · simp only [insertSpliced, insertChecked, spanAt_eq, ← touching_eq_take hle, below_eq_take,
      above_eq_drop hle, splice, if_pos (And.intro hle beyondIdx_le)]
    cases Interval.make (span lo hi (touching t lo hi rs)).lo (span lo hi (touching t lo hi rs)).hi
      <;> rfl
  · obtain ⟨hinv, hnone⟩ := touching_of_crossed h hlo hhi (by omega)
    rw [insertChecked_of_apart hinv hnone, insertSpliced, spanAt, dif_neg (by omega),
      Interval.make, if_neg (Int.not_le.mpr hinv)]
    rfl

end Runs

namespace Domain
variable {rs : List Interval}

/-- An inverted range never changes intervals. Where one of them reaches over it the intervals stay
as they are, that one being put in its own place, and otherwise the range is refused before anything
is put anywhere, whether or not the positions cross. -/
theorem inverted_insert_absorbed_or_refused [t.Lawful] (h : (.intervals rs : Domain t).Consistent)
    (hlo : t.fits lo = true) (hhi : t.fits hi = true) (hinv : hi < lo) :
    let d : Domain t := .intervals rs
    let first := Runs.reachingIdx (t.pred lo) rs
    let last := Runs.beyondIdx (t.succ hi) rs
    ((∃ r ∈ rs, r.lo ≤ hi + 1 ∧ lo - 1 ≤ r.hi) ∧ last = first + 1 ∧
        Runs.insertSpliced t lo hi rs = .ok (some rs) ∧ d.insertRangeChecked lo hi = .ok d) ∨
      ((∀ r ∈ rs, ¬(r.lo ≤ hi + 1 ∧ lo - 1 ≤ r.hi)) ∧ last ≤ first ∧
        Runs.insertSpliced t lo hi rs = .error (.malformedInterval lo hi) ∧
        d.insertRangeChecked lo hi = .error (.malformedInterval lo hi)) := by
  intro d first last
  have hbelow : t.fits (lo - 1) = true :=
    ValueType.Lawful.fits_between hi lo _ hhi hlo (by omega) (by omega)
  have habove : t.fits (hi + 1) = true :=
    ValueType.Lawful.fits_between hi lo _ hhi hlo (by omega) (by omega)
  have hlength : (Runs.touching t lo hi rs).length = last - first :=
    Runs.length_touching h hbelow habove
  rcases Runs.touching_inverted h hbelow habove hinv with hnone | ⟨r, hr, hone⟩
  · right
    have hrefused := Runs.insertChecked_of_apart hinv hnone
    rw [hnone, List.length_nil] at hlength
    refine ⟨(Runs.touching_eq_nil_iff h hbelow habove).mp hnone, by omega, ?_, ?_⟩
    · rw [Runs.insertSpliced_eq h hbelow habove, hrefused]
      rfl
    · simp only [d, insertRangeChecked, hrefused]
  · left
    have hover := ((Runs.mem_touching h hbelow habove).mp (hone ▸ List.mem_singleton_self r)).2
    have hsame := Runs.insertChecked_of_absorbed hinv (Runs.Consistent.le h hr) hover.1 hover.2 hone
    rw [hone, List.length_singleton] at hlength
    refine ⟨⟨r, hr, hover.2, hover.1⟩, by omega, ?_, ?_⟩
    · rw [Runs.insertSpliced_eq h hbelow habove, hsame]
      rfl
    · simp only [d, insertRangeChecked, hsame]

/-- An inverted range over all intervals, for which the positions cross, one in a gap, one in an
interval and one right beside it. -/
theorem inverted_insert_absorbed_or_refused_crossed :
    let rs : List Interval := [⟨0, 1⟩, ⟨5, 8⟩, ⟨10, 11⟩]
    let d : Domain .int32 := .intervals rs
    d.Consistent ∧ Runs.beyondIdx (-4) rs < Runs.reachingIdx 19 rs ∧
      d.insertRangeChecked 20 (-5) = .error (.malformedInterval 20 (-5)) ∧
      d.insertRangeChecked 4 2 = .error (.malformedInterval 4 2) ∧
      d.insertRangeChecked 8 6 = .ok d ∧ d.insertRangeChecked 2 1 = .ok d := by
  intro rs d
  have hd : d.Consistent := by decide
  have hcrossed := inverted_insert_absorbed_or_refused hd (by decide) (by decide)
    (by decide : (-5 : Int) < 20)
  have hgap := inverted_insert_absorbed_or_refused hd (by decide) (by decide)
    (by decide : (2 : Int) < 4)
  have hinside := inverted_insert_absorbed_or_refused hd (by decide) (by decide)
    (by decide : (6 : Int) < 8)
  have hbeside := inverted_insert_absorbed_or_refused hd (by decide) (by decide)
    (by decide : (1 : Int) < 2)
  exact ⟨hd, by decide, (hcrossed.resolve_left fun h => absurd h.1 (by decide)).2.2.2,
    (hgap.resolve_left fun h => absurd h.1 (by decide)).2.2.2,
    (hinside.resolve_right fun h => absurd h.1 (by decide)).2.2.2,
    (hbeside.resolve_right fun h => absurd h.1 (by decide)).2.2.2⟩

end Domain
end FiniteDomains
