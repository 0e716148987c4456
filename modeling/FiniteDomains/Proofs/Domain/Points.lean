import FiniteDomains.Domain.Points
import FiniteDomains.Proofs.Domain.Runs
import Mathlib.Data.List.Sort

/-! Consistent lists of values: what is kept of one is consistent again, and its runs are the
consistent list of intervals with the same values. -/
namespace FiniteDomains.Points
variable {t : ValueType} {vs ws : List Int} {lo hi v w : Int}

instance decidableConsistent : (vs : List Int) → Decidable (Consistent vs)
  | [] => .isTrue trivial
  | v :: vs =>
    have : Decidable (Consistent vs) := decidableConsistent vs
    inferInstanceAs (Decidable ((∀ w ∈ vs.head?, v < w) ∧ _))

theorem consistent_iff : Consistent vs ↔ vs.Pairwise (· < ·) := by
  induction vs with
  | nil => simp [Consistent]
  | cons v vs ih =>
    rw [Consistent, ih, List.pairwise_cons]
    constructor
    · rintro ⟨hhead, hpair⟩
      refine ⟨?_, hpair⟩
      cases vs with
      | nil => simp
      | cons w ws =>
        have hw : v < w := hhead w rfl
        intro u hu
        rcases List.mem_cons.mp hu with rfl | hu
        · exact hw
        · exact Int.lt_trans hw ((List.pairwise_cons.mp hpair).1 u hu)
    · rintro ⟨hall, hpair⟩
      exact ⟨fun w hw => hall w (List.mem_of_mem_head? hw), hpair⟩

theorem Consistent.lt (h : Consistent (v :: vs)) (hw : w ∈ vs) : v < w :=
  (List.pairwise_cons.mp (consistent_iff.mp h)).1 w hw

theorem Consistent.sublist (h : Consistent vs) (hs : ws.Sublist vs) : Consistent ws :=
  consistent_iff.mpr ((consistent_iff.mp h).sublist hs)

theorem Consistent.eq_of_mem_iff (h : Consistent vs) (hws : Consistent ws)
    (heq : ∀ v, v ∈ vs ↔ v ∈ ws) : vs = ws :=
  (consistent_iff.mp h).eq_of_mem_iff (consistent_iff.mp hws) heq

/-! ### Keeping and dropping a range -/

theorem mem_below (h : Consistent vs) : v ∈ below lo vs ↔ v ∈ vs ∧ v < lo := by
  rw [below, (split_eq_filter (consistent_iff.mp h) (by simp only [decide_eq_true_eq]; omega)).1]
  simp

theorem mem_notBelow (h : Consistent vs) : v ∈ notBelow lo vs ↔ v ∈ vs ∧ lo ≤ v := by
  rw [notBelow,
    (split_eq_filter (consistent_iff.mp h) (by simp only [decide_eq_true_eq]; omega)).2]
  simp

theorem notBelow_sublist (lo : Int) (vs : List Int) : (notBelow lo vs).Sublist vs :=
  List.dropWhile_sublist _

theorem Consistent.notBelow (h : Consistent vs) (lo : Int) : Consistent (Points.notBelow lo vs) :=
  h.sublist (notBelow_sublist lo vs)

theorem mem_restrict (h : Consistent vs) : v ∈ restrict lo hi vs ↔ v ∈ vs ∧ lo ≤ v ∧ v ≤ hi := by
  have hrest := consistent_iff.mp (h.notBelow lo)
  rw [restrict, (split_eq_filter hrest (by simp only [decide_eq_true_eq]; omega)).1]
  simp only [List.mem_filter, mem_notBelow h, decide_eq_true_eq]
  exact and_assoc

theorem mem_above (h : Consistent vs) (hle : lo ≤ hi) : v ∈ above lo hi vs ↔ v ∈ vs ∧ hi < v := by
  have hrest := consistent_iff.mp (h.notBelow lo)
  rw [above, (split_eq_filter hrest (by simp only [decide_eq_true_eq]; omega)).2]
  simp only [List.mem_filter, mem_notBelow h, Bool.not_eq_true', decide_eq_false_iff_not]
  constructor
  · rintro ⟨⟨hv, -⟩, hlt⟩
    exact ⟨hv, by omega⟩
  · rintro ⟨hv, hlt⟩
    exact ⟨⟨hv, by omega⟩, by omega⟩

theorem coversRange_self [t.Lawful] (h : Consistent vs) :
    coversRange t v v vs = true ↔ v ∈ vs := by
  have hmem (w : Int) : w ∈ restrict v v vs ↔ w ∈ vs ∧ w = v := by
    rw [mem_restrict h]
    exact and_congr_right fun _ => by omega
  rw [coversRange, decide_eq_true_eq, ValueType.count_self, List.length_eq_one_iff]
  constructor
  · rintro ⟨w, hw⟩
    obtain ⟨hin, rfl⟩ := (hmem w).mp (hw ▸ List.mem_singleton_self w)
    exact hin
  · intro hv
    have hcons : Consistent (restrict v v vs) :=
      (h.notBelow v).sublist (List.takeWhile_sublist _)
    refine ⟨v, hcons.eq_of_mem_iff ⟨by simp, trivial⟩ fun w => ?_⟩
    rw [hmem, List.mem_singleton]
    exact ⟨fun hw => hw.2, fun hw => ⟨hw ▸ hv, hw⟩⟩

theorem mem_erase (h : Consistent vs) (hle : lo ≤ hi) :
    v ∈ erase lo hi vs ↔ v ∈ vs ∧ ¬(lo ≤ v ∧ v ≤ hi) := by
  rw [erase, List.mem_append, mem_below h, mem_above h hle, ← and_or_left]
  refine and_congr_right fun _ => ?_
  omega

theorem restrict_sublist (lo hi : Int) (vs : List Int) : (restrict lo hi vs).Sublist vs :=
  (List.takeWhile_sublist _).trans (notBelow_sublist lo vs)

theorem erase_sublist (lo hi : Int) (vs : List Int) : (erase lo hi vs).Sublist vs := by
  have habove : (above lo hi vs).Sublist (notBelow lo vs) := List.dropWhile_sublist _
  have hboth := (List.Sublist.refl (below lo vs)).append habove
  rwa [below, notBelow, List.takeWhile_append_dropWhile] at hboth

theorem Consistent.restrict (h : Consistent vs) : Consistent (Points.restrict lo hi vs) :=
  h.sublist (restrict_sublist lo hi vs)

theorem Consistent.erase (h : Consistent vs) : Consistent (Points.erase lo hi vs) :=
  h.sublist (erase_sublist lo hi vs)

theorem mem_inter {rs : List Interval} (h : Consistent vs) :
    v ∈ (rs.flatMap fun r => restrict r.lo r.hi vs) ↔ v ∈ vs ∧ v ∈ Runs.covered rs := by
  simp only [List.mem_flatMap, mem_restrict h, Runs.mem_covered, Interval.mem_iff]
  constructor
  · rintro ⟨r, hr, hv, hin⟩
    exact ⟨hv, r, hr, hin⟩
  · rintro ⟨hv, r, hr, hin⟩
    exact ⟨r, hr, hv, hin⟩

theorem Consistent.inter {rs : List Interval} (h : Consistent vs) (hrs : Runs.Consistent rs) :
    Consistent (rs.flatMap fun r => Points.restrict r.lo r.hi vs) := by
  obtain ⟨-, hpair⟩ := Runs.consistent_iff.mp hrs
  apply consistent_iff.mpr
  apply List.pairwise_flatMap.mpr
  refine ⟨fun r _ => consistent_iff.mp h.restrict, ?_⟩
  refine hpair.imp ?_
  intro r q hfar v hv w hw
  have hvhi := ((mem_restrict h).mp hv).2.2
  have hwlo := ((mem_restrict h).mp hw).2.1
  omega

/-! ### Moving -/

theorem shift_eq {offset : Int} (hfit : ∀ v ∈ vs, t.fits (v + offset) = true) :
    shift t offset vs = vs.map (· + offset) := by
  apply List.map_congr_left
  intro v hv
  exact ValueType.unchecked_eq (hfit v hv)

theorem Consistent.translate (h : Consistent vs) (offset : Int) :
    Consistent (vs.map (· + offset)) := by
  apply consistent_iff.mpr
  apply List.pairwise_map.mpr
  refine (consistent_iff.mp h).imp ?_
  intro v w hlt
  omega

theorem mem_translate {offset : Int} : v ∈ vs.map (· + offset) ↔ v - offset ∈ vs := by
  rw [List.mem_map]
  constructor
  · rintro ⟨w, hw, rfl⟩
    rwa [Int.add_sub_cancel]
  · intro hv
    exact ⟨v - offset, hv, Int.sub_add_cancel v offset⟩

/-! ### Runs -/

theorem runs_spec [t.Lawful] (h : Consistent vs) (hfit : ∀ v ∈ vs, t.fits v = true) :
    Runs.Consistent (runs t vs) ∧ (∀ v, v ∈ Runs.covered (runs t vs) ↔ v ∈ vs) ∧
      (runs t vs).head?.map Interval.lo = vs.head? := by
  induction vs with
  | nil => simp [runs, Runs.Consistent, Runs.covered]
  | cons v vs ih =>
    obtain ⟨hcons, hmem, hhead⟩ := ih h.2 fun w hw => hfit w (List.mem_cons_of_mem _ hw)
    cases hruns : runs t vs with
    | nil =>
      rw [hruns] at hmem hhead
      have hnil : vs = [] := List.head?_eq_none_iff.mp hhead.symm
      subst hnil
      simp only [runs, Runs.Consistent]
      refine ⟨⟨Int.le_refl _, by simp, trivial⟩, ?_, rfl⟩
      intro w
      simp only [Runs.mem_covered, List.mem_singleton, exists_eq_left, Interval.mem_mk]
      omega
    | cons r rs =>
      rw [hruns] at hcons hmem hhead
      have hlo : r.lo ∈ vs := List.mem_of_mem_head? hhead.symm
      have hlt : v < r.lo := h.lt hlo
      have hfits : t.fits (v + 1) = true :=
        ValueType.Lawful.fits_between v r.lo (v + 1) (hfit v List.mem_cons_self)
          (hfit _ (List.mem_cons_of_mem _ hlo)) (by omega) (by omega)
      simp only [runs, hruns, ValueType.succ_eq hfits]
      have hwf := hcons.1
      split
      · next hnext =>
        refine ⟨⟨by simp only; omega, hcons.2.1, hcons.2.2⟩, ?_, rfl⟩
        intro w
        rw [Runs.mem_covered_cons, List.mem_cons, ← hmem, Runs.mem_covered_cons, Interval.mem_mk,
          Interval.mem_iff]
        constructor
        · rintro (hw | hw)
          · by_cases he : w = v
            · exact .inl he
            · exact .inr (.inl (by omega))
          · exact .inr (.inr hw)
        · rintro (rfl | hw | hw)
          · exact .inl (by omega)
          · exact .inl (by omega)
          · exact .inr hw
      · next hgap =>
        have hfar : v + 1 < r.lo := by omega
        refine ⟨⟨Int.le_refl _, ?_, hcons⟩, ?_, rfl⟩
        · intro q hq
          cases hq
          exact hfar
        · intro w
          rw [Runs.mem_covered_cons, hmem, List.mem_cons, Interval.mem_mk]
          constructor
          · rintro (hw | hw)
            · exact .inl (by omega)
            · exact .inr hw
          · rintro (rfl | hw)
            · exact .inl (by omega)
            · exact .inr hw

/-! ### Ends -/

theorem head?_isLeast {m : Int} (h : Consistent vs) (hm : vs.head? = some m) :
    IsLeast {v | v ∈ vs} m := by
  cases vs with
  | nil => cases hm
  | cons v vs =>
    cases hm
    refine ⟨List.mem_cons_self, ?_⟩
    intro w hw
    rcases List.mem_cons.mp hw with rfl | hw
    · exact Int.le_refl _
    · exact Int.le_of_lt (h.lt hw)

theorem getLast?_isGreatest {m : Int} (h : Consistent vs) (hm : vs.getLast? = some m) :
    IsGreatest {v | v ∈ vs} m := by
  induction vs with
  | nil => cases hm
  | cons v vs ih =>
    cases vs with
    | nil =>
      cases hm
      exact ⟨List.mem_cons_self, fun w hw => Int.le_of_eq (List.mem_singleton.mp hw)⟩
    | cons u us =>
      obtain ⟨hmem, hup⟩ := ih h.2 hm
      refine ⟨List.mem_cons_of_mem _ hmem, ?_⟩
      intro w hw
      rcases List.mem_cons.mp hw with rfl | hw
      · exact Int.le_of_lt (h.lt hmem)
      · exact hup hw

theorem Consistent.card_toFinset (h : Consistent vs) : vs.toFinset.card = vs.length :=
  List.toFinset_card_of_nodup ((consistent_iff.mp h).imp fun hlt => Int.ne_of_lt hlt)

end FiniteDomains.Points
