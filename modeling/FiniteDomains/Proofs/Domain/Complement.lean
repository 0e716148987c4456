import FiniteDomains.Proofs.Domain.Algebra

/-! The complement of a domain over a frame has the values of the frame that the domain has not, in
the one form that stands for them. The gaps between consistent intervals are consistent too, since
each of the intervals has a value. -/
namespace FiniteDomains
variable {t : ValueType}

namespace Runs
variable {rs : List Interval} {hi cursor v : Int}

theorem lastGap_consistent (hi cursor : Int) : Consistent (lastGap hi cursor) := by
  rw [lastGap]
  split
  · next hle => exact ⟨hle, by simp, trivial⟩
  · trivial

theorem mem_lastGap : v ∈ covered (lastGap hi cursor) ↔ cursor ≤ v ∧ v ≤ hi := by
  rw [lastGap]
  split
  · simp [covered]
  · next hlt =>
    refine iff_of_false ?_ (by omega)
    rintro ⟨r, hr, -⟩
    cases hr

theorem Consistent.cons_gap {lo : Int} (h : Consistent rs) (hle : lo ≤ hi)
    (hbeyond : ∀ v ∈ covered rs, hi + 1 < v) : Consistent (⟨lo, hi⟩ :: rs) := by
  refine ⟨hle, fun q hq => ?_, h⟩
  have hq := List.mem_of_mem_head? hq
  exact hbeyond q.lo ⟨q, hq, Int.le_refl _, h.le hq⟩

/-- The gaps that ascending intervals leave from a cursor on. -/
theorem gaps_spec (h : Consistent rs) (hfit : ∀ w, cursor ≤ w → w ≤ hi → t.fits w = true)
    (hnext : ∀ r ∈ rs, t.fits (r.hi + 1) = true) :
    Consistent (gaps t hi cursor rs) ∧
      ∀ v, v ∈ covered (gaps t hi cursor rs) ↔ (cursor ≤ v ∧ v ≤ hi) ∧ v ∉ covered rs := by
  induction rs generalizing cursor with
  | nil =>
    have hnone (v : Int) : v ∉ covered [] := by simp [covered]
    exact ⟨lastGap_consistent hi cursor, fun v => mem_lastGap.trans (and_iff_left (hnone v)).symm⟩
  | cons r rs ih =>
    obtain ⟨hsucc, hnext⟩ := List.forall_mem_cons.mp hnext
    have hwf := h.1
    have hlater (v : Int) : v ∈ covered rs → r.hi + 1 < v := h.far_covered
    simp only [gaps, mem_covered_cons, Interval.mem_iff, not_or]
    split
    · next hbefore =>
      obtain ⟨hcons, hmem⟩ := ih h.tail hfit hnext
      refine ⟨hcons, fun v => (hmem v).trans (and_congr_right fun hv => ?_)⟩
      exact (and_iff_right (by omega)).symm
    · split
      · next hbehind =>
        refine ⟨lastGap_consistent hi cursor, fun v => mem_lastGap.trans ?_⟩
        refine (and_iff_left_of_imp fun hv => ⟨by omega, fun hin => ?_⟩).symm
        have hfar := hlater v hin
        omega
      · obtain ⟨hcons, hmem⟩ := ih h.tail
          (fun w (hlo : r.hi + 1 ≤ w) => hfit w (by omega)) hnext
        rw [ValueType.succ_eq hsucc]
        split
        · next hlt =>
          rw [ValueType.pred_eq (hfit _ (by omega) (by omega)), List.singleton_append]
          refine ⟨hcons.cons_gap (by omega) fun v hv => ?_, fun v => ?_⟩
          · have hlo := ((hmem v).mp hv).1.1
            omega
          · rw [mem_covered_cons, hmem, Interval.mem_mk]
            by_cases hv : v ∈ covered rs
            · have hfar := hlater v hv
              simp only [hv, not_true_eq_false, and_false, or_false, iff_false]
              omega
            · simp only [hv, not_false_eq_true, and_true]
              omega
        · next hle =>
          rw [List.nil_append]
          refine ⟨hcons, fun v => (hmem v).trans ?_⟩
          by_cases hv : v ∈ covered rs
          · simp only [hv, not_true_eq_false, and_false]
          · simp only [hv, not_false_eq_true, and_true]
            omega

end Runs

namespace Points
variable {vs ws : List Int} {frame : Interval} {v : Int}

theorem diff_eq (h : Consistent vs) (hs : ws.Sublist vs) :
    diff vs ws = vs.filter fun v => decide (v ∉ ws) := by
  -- Both lists are walked once, which takes away all of the second one if it is part of the first.
  fun_induction diff vs ws with
  | case1 => rfl
  | case2 v vs => simp
  | case3 vs w ws ih =>
    rw [ih h.2 (List.cons_sublist_cons.mp hs), List.filter_cons_of_neg (by simp)]
    refine List.filter_congr fun u hu => ?_
    have hlt := h.lt hu
    have hne : u ≠ w := by omega
    simp [hne]
  | case4 v vs w ws hne ih =>
    have hrest : (w :: ws).Sublist vs := by
      cases hs with
      | cons _ hs => exact hs
      | cons_cons _ hs => exact absurd rfl hne
    have hout : v ∉ w :: ws := fun hv => Int.lt_irrefl v (h.lt (hrest.subset hv))
    rw [ih h.2 hrest, List.filter_cons_of_pos (by simpa using hout)]

theorem complement_spec (h : Consistent vs) (hle : frame.lo ≤ frame.hi)
    (hfit : ∀ w ∈ frame, t.fits w = true) :
    Consistent (complement t frame vs) ∧ ∀ v, v ∈ complement t frame vs ↔ v ∈ frame ∧ v ∉ vs := by
  have hfits (w : Int) (hlo : frame.lo < w)
      (hhi : w ≤ frame.lo + (frame.hi - frame.lo).toNat) : t.fits w = true :=
    hfit w ⟨by omega, by omega⟩
  have hall : Consistent (t.ascending frame.lo (frame.hi - frame.lo).toNat) :=
    consistent_iff.mpr (ValueType.ascending_pairwise hfits)
  have hmem (v : Int) : v ∈ t.ascending frame.lo (frame.hi - frame.lo).toNat ↔ v ∈ frame := by
    rw [ValueType.mem_ascending hfits, Interval.mem_iff]
    omega
  -- what is stored in the frame is a part of all its values
  have hpart : restrict frame.lo frame.hi vs =
      (t.ascending frame.lo (frame.hi - frame.lo).toNat).filter fun v => decide (v ∈ vs) := by
    refine h.restrict.eq_of_mem_iff (hall.sublist List.filter_sublist) fun v => ?_
    rw [mem_restrict h, List.mem_filter, hmem, decide_eq_true_eq, Interval.mem_iff]
    exact and_comm
  rw [complement, diff_eq hall (hpart ▸ List.filter_sublist)]
  refine ⟨hall.sublist List.filter_sublist, fun v => ?_⟩
  rw [List.mem_filter, hmem, decide_eq_true_eq, mem_restrict h, Interval.mem_iff]
  tauto

end Points

namespace Domain
variable {d e : Domain t} {frame : Interval} {limit : Nat}

theorem Valid.complement_selects [t.Lawful] (h : d.Valid)
    (hnext : d.isSparse = false → ∀ v ∈ d, t.fits (v + 1) = true) (hle : frame.lo ≤ frame.hi)
    (hfit : ∀ v ∈ frame, t.fits v = true) (hout : d.complementUpTo limit frame = .ok e) :
    d.Selects (fun v => v ∈ frame ∧ v ∉ d) e := by
  have hselects (he : e.Consistent) (hmem : ∀ v, v ∈ e ↔ v ∈ frame ∧ v ∉ d)
      (hrep : e.isSparse = d.isSparse) : d.Selects (fun v => v ∈ frame ∧ v ∉ d) e :=
    .of_mem ⟨he, fun v hv => hfit v ((hmem v).mp hv).1⟩ hmem hrep
  cases d with
  | intervals rs =>
    cases hout
    have hends (r : Interval) (hr : r ∈ rs) : t.fits (r.hi + 1) = true :=
      hnext rfl r.hi ⟨r, hr, Runs.Consistent.le h.consistent hr, Int.le_refl _⟩
    obtain ⟨hcons, hmem⟩ := Runs.gaps_spec h.consistent
      (fun w (hlo : frame.lo ≤ w) (hhi : w ≤ frame.hi) => hfit w ⟨hlo, hhi⟩) hends
    exact hselects hcons hmem rfl
  | sparse vs =>
    simp only [complementUpTo] at hout
    split at hout
    · cases hout
      obtain ⟨hcons, hmem⟩ := Points.complement_spec h.consistent hle hfit
      exact hselects hcons hmem rfl
    · cases hout

theorem exists_complement (hlimit : d.isSparse = true → frame.size t ≤ limit) :
    ∃ e, d.complementUpTo limit frame = .ok e := by
  -- Only the size of the frame can stand against a complement, and only that of a sparse domain.
  cases d with
  | intervals rs => exact ⟨_, rfl⟩
  | sparse vs => exact ⟨_, if_pos (hlimit rfl)⟩

/-- The complement over a frame has the values of the frame that the domain has not. Complemented
again it gives the part of the domain in the frame, wherever the domain lies. -/
theorem complement_involutive [t.Lawful] (h : d.Valid) (hle : frame.lo ≤ frame.hi)
    (hfit : ∀ v ∈ frame, t.fits v = true)
    (hnext : d.isSparse = false → ∀ v, v ∈ d ∨ v ∈ frame → t.fits (v + 1) = true)
    (hlimit : d.isSparse = true → frame.size t ≤ limit) :
    ∃ e, d.complementUpTo limit frame = .ok e ∧ d.Selects (fun v => v ∈ frame ∧ v ∉ d) e ∧
      e.complementUpTo limit frame = .ok (d.restrict frame.lo frame.hi) ∧
      d.Selects (fun v => v ∈ d ∧ v ∈ frame) (d.restrict frame.lo frame.hi) := by
  obtain ⟨e, he⟩ := exists_complement hlimit
  have hone := h.complement_selects (fun hrep v hv => hnext hrep v (.inl hv)) hle hfit he
  -- what is missing lies in the frame, so that the second walk has room as well
  have hnext' (hrep : e.isSparse = false) (v : Int) (hv : v ∈ e) : t.fits (v + 1) = true :=
    hnext (hone.isSparse.symm.trans hrep) v (.inr ((hone.mem v).mp hv).1)
  have hlimit' (hrep : e.isSparse = true) : frame.size t ≤ limit :=
    hlimit (hone.isSparse.symm.trans hrep)
  obtain ⟨u, hu⟩ := exists_complement hlimit'
  have htwo := hone.valid.complement_selects hnext' hle hfit hu
  have hpart := h.restrict_selects frame.lo frame.hi
  have heq : u = d.restrict frame.lo frame.hi := by
    refine eq_of_mem_iff htwo.valid.consistent hpart.valid.consistent ?_ fun v => ?_
    · rw [htwo.isSparse, hone.isSparse, hpart.isSparse]
    · rw [htwo.mem, hone.mem, hpart.mem, ← Interval.mem_iff]
      tauto
  exact ⟨e, he, hone, heq ▸ hu, hpart⟩

/-- Intervals across the start of a frame, inside and right behind its end, and listed values on
both sides of it. -/
theorem complement_involutive_crossing :
    let d : Domain .int32 := .intervals [⟨-9, 1⟩, ⟨4, 4⟩, ⟨9, 12⟩]
    let u : Domain .int32 := .sparse [-1, 1, 2, 7, 20]
    let frame : Interval := ⟨0, 8⟩
    d.Valid ∧ u.Valid ∧ frame.size .int32 = 9 ∧
      (∃ e, d.complementUpTo 9 frame = .ok e ∧ d.Selects (fun v => v ∈ frame ∧ v ∉ d) e ∧
        e = .intervals [⟨2, 3⟩, ⟨5, 8⟩] ∧
        e.complementUpTo 9 frame = .ok (.intervals [⟨0, 1⟩, ⟨4, 4⟩])) ∧
      ∃ e, u.complementUpTo 9 frame = .ok e ∧ u.Selects (fun v => v ∈ frame ∧ v ∉ u) e ∧
        e = .sparse [0, 3, 4, 5, 6, 8] ∧ e.complementUpTo 9 frame = .ok (.sparse [1, 2, 7]) := by
  intro d u frame
  have hdu : d.InUniverse := by decide
  have hd : d.Valid := hdu.valid (by decide)
  have hu : u.Valid := InUniverse.valid (by decide) (by decide)
  have hinner (v : Int) (hv : v ∈ frame) : ValueType.int32.Inner v :=
    (by decide : frame.Roomy .int32).inner hv
  have hnext (v : Int) (hv : v ∈ d ∨ v ∈ frame) : ValueType.int32.fits (v + 1) = true := by
    rcases hv with hv | hv
    · exact (hdu v hv).inner.2
    · exact (hinner v hv).2
  have hsize : frame.size .int32 ≤ 9 := by decide
  obtain ⟨e, he, hselects, hagain, -⟩ := complement_involutive hd (by decide)
    (fun v hv => (hinner v hv).fits) (fun _ => hnext) fun _ => hsize
  obtain ⟨e', he', hselects', hagain', -⟩ := complement_involutive hu (by decide)
    (fun v hv => (hinner v hv).fits) nofun fun _ => hsize
  have hmade : d.complementUpTo 9 frame = .ok (.intervals [⟨2, 3⟩, ⟨5, 8⟩]) := by decide
  have hmade' : u.complementUpTo 9 frame = .ok (.sparse [0, 3, 4, 5, 6, 8]) := by decide
  exact ⟨hd, hu, by decide, ⟨e, he, hselects, Except.ok.inj (he.symm.trans hmade), hagain⟩,
    e', he', hselects', Except.ok.inj (he'.symm.trans hmade'), hagain'⟩

end Domain
end FiniteDomains
