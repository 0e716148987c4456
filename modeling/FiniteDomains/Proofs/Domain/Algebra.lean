import FiniteDomains.Proofs.Domain.Basic
import FiniteDomains.Proofs.Domain.Insertion

/-! The set algebra of domains: union, intersection and difference with a domain or with a range
have exactly the values that their names promise, whichever of the operands is sparse. What is
added to intervals needs a value on either side, so that its neighbours can be looked for; this is
so of the parts that an intersection collects and of the moved intervals that a translation is made
of as well. -/
namespace FiniteDomains.Domain
variable {t : ValueType} {d e u : Domain t} {lo hi v : Int} {P Q : Int → Prop}

/-- A valid domain represented as `d` is that has the values with a property and no other, also
when it is asked for them. -/
structure Selects (d : Domain t) (P : Int → Prop) (e : Domain t) : Prop where
  valid : e.Valid
  mem : ∀ v, v ∈ e ↔ P v
  contains : ∀ v, e.contains v = true ↔ P v
  isSparse : e.isSparse = d.isSparse

theorem Selects.of_mem [t.Lawful] (hvalid : e.Valid) (hmem : ∀ v, v ∈ e ↔ P v)
    (hrep : e.isSparse = d.isSparse) : d.Selects P e :=
  ⟨hvalid, hmem, fun v => (contains_iff hvalid.consistent).trans (hmem v), hrep⟩

theorem Selects.trans (h : d.Selects P e) (he : e.Selects Q u) : d.Selects Q u :=
  ⟨he.valid, he.mem, he.contains, he.isSparse.trans h.isSparse⟩

theorem Selects.congr (h : d.Selects P e) (hiff : ∀ v, P v ↔ Q v) : d.Selects Q e :=
  ⟨h.valid, fun v => (h.mem v).trans (hiff v), fun v => (h.contains v).trans (hiff v), h.isSparse⟩

theorem insertRangeChecked_eq (hle : lo ≤ hi) (d : Domain t) :
    d.insertRangeChecked lo hi = .ok (d.insertRange lo hi) := by
  cases d with
  | intervals rs => rw [insertRangeChecked, Runs.insertChecked_eq hle]; rfl
  | sparse vs => rw [insertRangeChecked, Points.insertChecked_eq hle]; rfl

theorem insertRange_isSparse (d : Domain t) (lo hi : Int) :
    (d.insertRange lo hi).isSparse = d.isSparse := by
  cases d <;> rfl

theorem insertRanges_isSparse (rs : List Interval) (d : Domain t) :
    (rs.foldl (fun d r => d.insertRange r.lo r.hi) d).isSparse = d.isSparse := by
  induction rs generalizing d with
  | nil => rfl
  | cons r rs ih => rw [List.foldl_cons, ih, insertRange_isSparse]

section
variable [t.Lawful]

/-! ### A domain and a range -/

theorem Valid.insertRange_selects_of (h : d.Valid) (hle : lo ≤ hi) (hlo : t.fits lo = true)
    (hhi : t.fits hi = true) (hroom : d.isSparse = false → t.Inner lo ∧ t.Inner hi) :
    d.Selects (fun v => v ∈ d ∨ lo ≤ v ∧ v ≤ hi) (d.insertRange lo hi) := by
  have hfit (w : Int) (hlow : lo ≤ w) (hhigh : w ≤ hi) : t.fits w = true :=
    ValueType.Lawful.fits_between lo hi w hlo hhi hlow hhigh
  have hmem (v : Int) : v ∈ d.insertRange lo hi ↔ v ∈ d ∨ lo ≤ v ∧ v ≤ hi := by
    cases d with
    | intervals rs => exact Runs.mem_covered_insert h.consistent (hroom rfl).1.1 (hroom rfl).2.2
    | sparse vs => exact Points.mem_insert h.consistent hle hfit
  refine .of_mem ⟨?_, ?_⟩ hmem (insertRange_isSparse d lo hi)
  · cases d with
    | intervals rs => exact Runs.Consistent.insert h.consistent hle (hroom rfl).1.1 (hroom rfl).2.2
    | sparse vs => exact Points.Consistent.insert h.consistent hle hfit
  · intro v hv
    rcases (hmem v).mp hv with hv | ⟨hlow, hhigh⟩
    · exact h.fits v hv
    · exact hfit v hlow hhigh

theorem Valid.insertRange_selects (h : d.Valid) (hle : lo ≤ hi) (hlo : t.Inner lo)
    (hhi : t.Inner hi) : d.Selects (fun v => v ∈ d ∨ lo ≤ v ∧ v ≤ hi) (d.insertRange lo hi) :=
  h.insertRange_selects_of hle hlo.fits hhi.fits fun _ => ⟨hlo, hhi⟩

theorem Valid.eraseRange_selects (h : d.Valid) (lo hi : Int) :
    d.Selects (fun v => v ∈ d ∧ ¬(lo ≤ v ∧ v ≤ hi)) (d.eraseRange lo hi) :=
  .of_mem (h.eraseRange lo hi) (fun _ => mem_eraseRange h) (eraseRange_isSparse d lo hi)

theorem Valid.restrict_selects (h : d.Valid) (lo hi : Int) :
    d.Selects (fun v => v ∈ d ∧ lo ≤ v ∧ v ≤ hi) (d.restrict lo hi) :=
  .of_mem (h.restrict lo hi) (fun _ => mem_restrict h.consistent) (restrict_isSparse d lo hi)

/-! ### Range by range -/

theorem Valid.insertRanges_selects (h : d.Valid) {rs : List Interval} (hwf : ∀ r ∈ rs, r.lo ≤ r.hi)
    (hfit : ∀ v ∈ Runs.covered rs, t.fits v = true)
    (hroom : d.isSparse = false → ∀ v ∈ Runs.covered rs, t.Inner v) :
    d.Selects (fun v => v ∈ d ∨ v ∈ Runs.covered rs)
      (rs.foldl (fun d r => d.insertRange r.lo r.hi) d) := by
  induction rs generalizing d with
  | nil => exact .of_mem h (by simp [Runs.covered]) rfl
  | cons r rs ih =>
    have hr := hwf r List.mem_cons_self
    have hlo : r.lo ∈ Runs.covered (r :: rs) := Runs.mem_covered_cons.mpr (.inl ⟨Int.le_refl _, hr⟩)
    have hhi : r.hi ∈ Runs.covered (r :: rs) := Runs.mem_covered_cons.mpr (.inl ⟨hr, Int.le_refl _⟩)
    have hone := h.insertRange_selects_of hr (hfit _ hlo) (hfit _ hhi) fun hrep =>
      ⟨hroom hrep _ hlo, hroom hrep _ hhi⟩
    have hrest := ih hone.valid (fun q hq => hwf q (List.mem_cons_of_mem _ hq))
      (fun v hv => hfit v (Runs.mem_covered_cons.mpr (.inr hv)))
      fun hrep v hv => hroom (hone.isSparse ▸ hrep) v (Runs.mem_covered_cons.mpr (.inr hv))
    refine (hone.trans hrest).congr fun v => ?_
    rw [hone.mem, Runs.mem_covered_cons, Interval.mem_iff]
    exact or_assoc

theorem Valid.eraseRanges_selects (h : d.Valid) (rs : List Interval) :
    d.Selects (fun v => v ∈ d ∧ v ∉ Runs.covered rs)
      (rs.foldl (fun d r => d.eraseRange r.lo r.hi) d) := by
  induction rs generalizing d with
  | nil => exact .of_mem h (by simp [Runs.covered]) rfl
  | cons r rs ih =>
    have hone := h.eraseRange_selects r.lo r.hi
    refine (hone.trans (ih hone.valid)).congr fun v => ?_
    rw [hone.mem, Runs.mem_covered_cons, Interval.mem_iff, not_or]
    exact and_assoc

/-! ### Two domains -/

theorem Valid.union_selects_of (h : d.Valid) (he : e.Valid)
    (hroom : d.isSparse = false → ∀ v ∈ e, t.Inner v) :
    d.Selects (fun v => v ∈ d ∨ v ∈ e) (d.union e) := by
  have hall := h.insertRanges_selects (fun r hr => operandRanges_le he.consistent hr)
    (fun v hv => he.fits v ((covered_operandRanges e).mp hv))
    fun hrep v hv => hroom hrep v ((covered_operandRanges e).mp hv)
  exact hall.congr fun v => or_congr_right (covered_operandRanges e)

theorem Valid.union_selects (h : d.Valid) (he : e.Valid) (hinner : ∀ v ∈ e, t.Inner v) :
    d.Selects (fun v => v ∈ d ∨ v ∈ e) (d.union e) :=
  h.union_selects_of he fun _ => hinner

theorem Valid.diff_selects (h : d.Valid) (e : Domain t) :
    d.Selects (fun v => v ∈ d ∧ v ∉ e) (d.diff e) :=
  (h.eraseRanges_selects e.operandRanges).congr fun _ =>
    and_congr_right fun _ => not_congr (covered_operandRanges e)

/-! ### Making domains -/

omit [t.Lawful] in
theorem mem_ofValues {vs : List Int} : v ∈ (ofValues vs : Domain t) ↔ v ∈ vs := Points.mem_ofList

omit [t.Lawful] in
theorem ofValues_valid {vs : List Int} (hfit : ∀ v ∈ vs, t.fits v = true) :
    (ofValues vs : Domain t).Valid :=
  ⟨Points.ofList_consistent vs, fun v hv => hfit v (mem_ofValues.mp hv)⟩

omit [t.Lawful] in
theorem ofIntervals_eq (rs : List Interval) :
    (ofIntervals rs : Domain t) = rs.foldl (fun d r => d.insertRange r.lo r.hi) empty :=
  (List.foldl_hom Domain.intervals fun _ _ => rfl).symm

omit [t.Lawful] in
theorem empty_valid : (empty : Domain t).Valid := ⟨trivial, by simp [empty]⟩

theorem ofIntervals_selects {rs : List Interval} (h : ∀ r ∈ rs, r.Roomy t) :
    (empty : Domain t).Selects (fun v => v ∈ Runs.covered rs) (ofIntervals rs) := by
  have hinner : ∀ v ∈ Runs.covered rs, t.Inner v := by
    rintro v ⟨r, hr, hv⟩
    exact (h r hr).inner hv
  have hall := empty_valid.insertRanges_selects (fun r hr => (h r hr).le)
    (fun v hv => (hinner v hv).fits) fun _ => hinner
  rw [ofIntervals_eq]
  refine hall.congr fun v => ?_
  simp [empty, mem_intervals, Runs.covered]

theorem Valid.remade_eq (h : d.Valid) (hroom : d.isSparse = false → ∀ v ∈ d, t.Inner v) :
    d.remade = d := by
  cases d with
  | intervals rs =>
    have hroomy : ∀ r ∈ rs, r.Roomy t := by
      intro r hr
      have hle : r.lo ≤ r.hi := Runs.Consistent.le h.consistent hr
      exact ⟨hle, hroom rfl _ ⟨r, hr, Int.le_refl _, hle⟩, hroom rfl _ ⟨r, hr, hle, Int.le_refl _⟩⟩
    have hmade := ofIntervals_selects hroomy
    exact eq_of_mem_iff hmade.valid.consistent h.consistent rfl hmade.mem
  | sparse vs =>
    exact eq_of_mem_iff (Points.ofList_consistent vs) h.consistent rfl fun v => mem_ofValues

/-! ### Intersection -/

omit [t.Lawful] in
theorem cleared_valid (d : Domain t) : d.cleared.Valid :=
  ⟨cleared_consistent d, fun v hv => absurd hv (not_mem_cleared d v)⟩

omit [t.Lawful] in
theorem cleared_isSparse (d : Domain t) : d.cleared.isSparse = d.isSparse := by cases d <;> rfl

/-- The values that two domains have in common have room beside them if they are to be added to
intervals. -/
def RoomFor (d e : Domain t) : Prop := d.isSparse = false → ∀ v ∈ d, v ∈ e → t.Inner v

theorem InUniverse.roomFor (hu : d.InUniverse) (e : Domain t) : d.RoomFor e :=
  fun _ v hv _ => (hu v hv).inner

theorem Valid.insertParts_selects (h : d.Valid) {rs : List Interval}
    (hroom : d.isSparse = false → ∀ v ∈ d, v ∈ Runs.covered rs → t.Inner v) (hu : u.Valid)
    (hrep : u.isSparse = d.isSparse) :
    u.Selects (fun v => v ∈ u ∨ v ∈ d ∧ v ∈ Runs.covered rs)
      (rs.foldl (fun result r => result.union (d.restrict r.lo r.hi)) u) := by
  induction rs generalizing u with
  | nil => exact .of_mem hu (by simp [Runs.covered]) rfl
  | cons r rs ih =>
    have hpart := h.restrict_selects r.lo r.hi
    have hone := hu.union_selects_of hpart.valid fun hint v hv => by
      obtain ⟨hvd, hvr⟩ := (hpart.mem v).mp hv
      exact hroom (hrep ▸ hint) v hvd (Runs.mem_covered_cons.mpr (.inl hvr))
    have hrest := ih (fun hint v hvd hv => hroom hint v hvd (Runs.mem_covered_cons.mpr (.inr hv)))
      hone.valid (hone.isSparse.trans hrep)
    refine (hone.trans hrest).congr fun v => ?_
    rw [hone.mem, hpart.mem, Runs.mem_covered_cons, Interval.mem_iff]
    tauto

theorem Valid.inter_selects (h : d.Valid) (he : e.Valid) (hroom : d.RoomFor e) :
    d.Selects (fun v => v ∈ d ∧ v ∈ e) (d.inter e) := by
  rw [Domain.inter]
  split
  · next hlisted =>
    cases d with
    | intervals rs => simp [isSparse] at hlisted
    | sparse vs =>
      have hmem (v : Int) : v ∈ vs.filter e.contains ↔ v ∈ vs ∧ v ∈ e := by
        rw [List.mem_filter, contains_iff he.consistent]
      refine .of_mem (ofValues_valid fun v hv => h.fits v ((hmem v).mp hv).1) (fun v => ?_) rfl
      exact mem_ofValues.trans (hmem v)
  · have hparts (hint : d.isSparse = false) (v : Int) (hv : v ∈ d)
        (hve : v ∈ Runs.covered e.operandRanges) : t.Inner v :=
      hroom hint v hv ((covered_operandRanges e).mp hve)
    have hall := h.insertParts_selects hparts (cleared_valid d) (cleared_isSparse d)
    refine .of_mem hall.valid (fun v => ?_) (hall.isSparse.trans (cleared_isSparse d))
    refine (hall.mem v).trans ?_
    rw [covered_operandRanges, or_iff_right (not_mem_cleared d v)]

/-- The parts of a domain in the maximal runs of another, one after another. -/
def parts (d e : Domain t) : Domain t :=
  match d with
  | .intervals runs => .intervals (e.runs.flatMap fun r => Runs.restrict r.lo r.hi runs)
  | .sparse values => .sparse (e.runs.flatMap fun r => Points.restrict r.lo r.hi values)

theorem Valid.mem_parts (h : d.Valid) (he : e.Valid) : v ∈ d.parts e ↔ v ∈ d ∧ v ∈ e := by
  rw [← he.runs.2 v]
  cases d with
  | intervals rs => exact Runs.mem_covered_inter
  | sparse vs => exact Points.mem_inter h.consistent

theorem Valid.parts_consistent (h : d.Valid) (he : e.Valid) : (d.parts e).Consistent := by
  cases d with
  | intervals rs => exact Runs.Consistent.inter h.consistent he.runs.1
  | sparse vs => exact Points.Consistent.inter h.consistent he.runs.1

/-- However an intersection is collected, it is the parts of the first domain in the maximal runs
of the second, side by side. -/
theorem Valid.inter_eq_parts (h : d.Valid) (he : e.Valid) (hroom : d.RoomFor e) :
    d.inter e = d.parts e := by
  have hinter := h.inter_selects he hroom
  refine eq_of_mem_iff hinter.valid.consistent (h.parts_consistent he) ?_ fun v => ?_
  · rw [hinter.isSparse]
    cases d <;> rfl
  · rw [hinter.mem, h.mem_parts he]

/-! ### Translation -/

def translate (offset : Int) : Domain t → Domain t
  | .intervals runs => .intervals (Runs.translate offset runs)
  | .sparse values => .sparse (values.map (· + offset))

/-- The moved values can be stored, and between the moved intervals there is room. -/
def Movable (d : Domain t) (offset : Int) : Prop :=
  ∀ v ∈ d, t.fits (v + offset) = true ∧ (d.isSparse = false → t.Inner (v + offset))

section
variable {offset : Int}

omit [t.Lawful] in
theorem mem_translate : v ∈ d.translate offset ↔ v - offset ∈ d := by
  cases d with
  | intervals rs => exact Runs.mem_covered_translate
  | sparse vs => exact Points.mem_translate

omit [t.Lawful] in
theorem translate_isSparse (d : Domain t) (offset : Int) :
    (d.translate offset).isSparse = d.isSparse := by
  cases d <;> rfl

omit [t.Lawful] in
theorem Valid.translate (h : d.Valid) (hmove : d.Movable offset) :
    (d.translate offset).Valid := by
  constructor
  · cases d with
    | intervals rs => exact Runs.Consistent.translate h.consistent offset
    | sparse vs => exact Points.Consistent.translate h.consistent offset
  · intro v hv
    have hback := (hmove _ (mem_translate.mp hv)).1
    rwa [Int.sub_add_cancel] at hback

/-- Making a domain again of its moved intervals or values leaves them where they are. -/
theorem Valid.moved_eq (h : d.Valid) (hmove : d.Movable offset) :
    d.moved offset = .ok (d.translate offset) := by
  have hremade : (d.translate offset).remade = d.translate offset := by
    refine (h.translate hmove).remade_eq fun hrep v hv => ?_
    have hback := (hmove _ (mem_translate.mp hv)).2 (translate_isSparse d offset ▸ hrep)
    rwa [Int.sub_add_cancel] at hback
  cases d with
  | intervals rs =>
    simp only [moved, Runs.shift_eq h.consistent fun v hv => (hmove v hv).1]
    exact congrArg Except.ok hremade
  | sparse vs =>
    simp only [moved, Points.shift_eq fun v hv => (hmove v hv).1]
    exact congrArg Except.ok hremade

theorem Valid.shift (h : d.Valid) (hoffset : t.Admissible offset) (hne : offset ≠ 0)
    (hmove : d.Movable offset) :
    ∃ e, d.shift offset = .ok e ∧ e.Valid ∧ ∀ v, v ∈ e ↔ v - offset ∈ d ∧ t.Admissible v := by
  have hmoved := h.translate hmove
  have hin : (Interval.whole t).contains offset = true := Interval.contains_iff.mpr hoffset
  refine ⟨(d.translate offset).restrict t.minValue t.maxValue, ?_, hmoved.restrict _ _, ?_⟩
  · simp only [Domain.shift, if_pos hin, if_neg hne, h.moved_eq hmove]
  · intro v
    rw [mem_restrict hmoved.consistent, mem_translate]
    rfl

omit [t.Lawful] in
theorem shift_refused (d : Domain t) (hoffset : ¬t.Admissible offset) :
    d.shift offset = .error (.shiftOutside offset) := by
  have hout : ¬(Interval.whole t).contains offset = true := mt Interval.contains_iff.mp hoffset
  rw [shift, if_neg hout]

theorem Valid.of_shift (h : d.Valid) (hmove : d.Movable offset) (hout : d.shift offset = .ok e) :
    e.Valid := by
  by_cases hoffset : t.Admissible offset
  · by_cases hzero : offset = 0
    · subst hzero
      rw [Domain.shift, if_pos (Interval.contains_iff.mpr hoffset), if_pos rfl] at hout
      cases hout
      exact h
    · obtain ⟨moved, hmoved, hvalid, -⟩ := h.shift hoffset hzero hmove
      exact Except.ok.inj (hmoved.symm.trans hout) ▸ hvalid
  · rw [shift_refused d hoffset] at hout
    cases hout

theorem InUniverse.movable (hu : d.InUniverse) (hoffset : t.Admissible offset) :
    d.Movable offset := by
  have hmin := ValueType.Lawful.min_eq (t := t)
  obtain ⟨hlow, hhigh⟩ := hoffset
  intro v hv
  obtain ⟨hvlow, hvhigh⟩ := hu v hv
  refine ⟨(hu v hv).fits_add ⟨hlow, hhigh⟩, fun _ => ?_⟩
  constructor <;> exact ValueType.Lawful.fits_near _ (by omega) (by omega)

end

/-! ### Ranges -/

theorem ofRange_ok (hle : lo ≤ hi) (hlo : t.fits lo = true) (hhi : t.fits hi = true) :
    ∃ d : Domain t, ofRange lo hi = .ok d ∧ d.Valid ∧ ∀ v, v ∈ d ↔ lo ≤ v ∧ v ≤ hi := by
  have hmem (v : Int) : v ∈ (.intervals [⟨lo, hi⟩] : Domain t) ↔ lo ≤ v ∧ v ≤ hi := by
    simp [mem_intervals, Runs.covered]
  refine ⟨.intervals [⟨lo, hi⟩], by rw [ofRange, Interval.make, if_pos hle], ⟨?_, ?_⟩, hmem⟩
  · exact ⟨hle, by simp, trivial⟩
  · intro v hv
    obtain ⟨hlow, hhigh⟩ := (hmem v).mp hv
    exact ValueType.Lawful.fits_between lo hi v hlo hhi hlow hhigh

theorem ofRangeSparse_ok (hle : lo ≤ hi) (hlo : t.fits lo = true) (hhi : t.fits hi = true) :
    ∃ d : Domain t, ofRangeSparse lo hi = .ok d ∧ d.Valid ∧ ∀ v, v ∈ d ↔ lo ≤ v ∧ v ≤ hi := by
  have hfit (w : Int) (hlow : lo ≤ w) (hhigh : w ≤ hi) : t.fits w = true :=
    ValueType.Lawful.fits_between lo hi w hlo hhi hlow hhigh
  have hnil : Points.Consistent [] := trivial
  have hmem (v : Int) : v ∈ (.sparse (Points.insert t lo hi []) : Domain t) ↔ lo ≤ v ∧ v ≤ hi := by
    rw [mem_sparse, Points.mem_insert hnil hle hfit]
    simp
  refine ⟨_, by rw [ofRangeSparse, Points.insertChecked_eq hle], ⟨?_, ?_⟩, hmem⟩
  · exact hnil.insert hle hfit
  · intro v hv
    obtain ⟨hlow, hhigh⟩ := (hmem v).mp hv
    exact hfit v hlow hhigh

/-- Union, intersection and difference are those of sets, with a domain of either representation
and with a range, and keep the representation of the receiver. -/
theorem set_algebra (hd : d.Valid) (he : e.Valid) :
    ((∀ v ∈ e, t.Inner v) → d.Selects (fun v => v ∈ d ∨ v ∈ e) (d.union e)) ∧
      (d.RoomFor e → d.Selects (fun v => v ∈ d ∧ v ∈ e) (d.inter e)) ∧
      d.Selects (fun v => v ∈ d ∧ v ∉ e) (d.diff e) ∧
      ∀ lo hi, lo ≤ hi →
        (t.Inner lo → t.Inner hi → ∃ u, d.insertRangeChecked lo hi = .ok u ∧
          d.Selects (fun v => v ∈ d ∨ lo ≤ v ∧ v ≤ hi) u) ∧
        d.Selects (fun v => v ∈ d ∧ lo ≤ v ∧ v ≤ hi) (d.restrict lo hi) ∧
        d.Selects (fun v => v ∈ d ∧ ¬(lo ≤ v ∧ v ≤ hi)) (d.eraseRange lo hi) := by
  refine ⟨fun hinner => hd.union_selects he hinner, hd.inter_selects he, hd.diff_selects e, ?_⟩
  intro lo hi hle
  refine ⟨fun hlo hhi => ?_, hd.restrict_selects lo hi, hd.eraseRange_selects lo hi⟩
  exact ⟨_, insertRangeChecked_eq hle d, hd.insertRange_selects hle hlo hhi⟩

/-- Union and intersection of a sparse domain with intervals that touch it, and a range that is
right beside both. -/
theorem set_algebra_touching :
    let d : Domain .int32 := .sparse [1, 2, 5, 9]
    let e : Domain .int32 := .intervals [⟨3, 5⟩, ⟨8, 8⟩]
    d.Selects (fun v => v ∈ d ∨ v ∈ e) (d.union e) ∧ d.union e = .sparse [1, 2, 3, 4, 5, 8, 9] ∧
      e.Selects (fun v => v ∈ e ∧ v ∈ d) (e.inter d) ∧ e.inter d = .intervals [⟨5, 5⟩] ∧
      e.Selects (fun v => v ∈ e ∧ v ∉ d) (e.diff d) ∧ e.diff d = .intervals [⟨3, 4⟩, ⟨8, 8⟩] ∧
      ∃ u, e.insertRangeChecked 6 7 = .ok u ∧ u = .intervals [⟨3, 8⟩] ∧
        e.Selects (fun v => v ∈ e ∨ 6 ≤ v ∧ v ≤ 7) u := by
  intro d e
  have hd : d.Valid := ⟨by simp [d, Consistent, Points.Consistent], by decide⟩
  have hu : e.InUniverse := by
    rintro v ⟨r, hr, hlo, hhi⟩
    have hin : ∀ r ∈ [(⟨3, 5⟩ : Interval), ⟨8, 8⟩], 3 ≤ r.lo ∧ r.hi ≤ 8 := by decide
    have hends := hin r hr
    rw [ValueType.admissible_int32]
    omega
  have he : e.Valid := ⟨by simp [e, Consistent, Runs.Consistent], fun v hv => (hu v hv).fits⟩
  obtain ⟨hunion, -⟩ := set_algebra hd he
  obtain ⟨-, hinter, hdiff, hranges⟩ := set_algebra he hd
  obtain ⟨u, hok, hselects⟩ := (hranges 6 7 (by decide)).1 ⟨rfl, rfl⟩ ⟨rfl, rfl⟩
  have hmade : e.insertRangeChecked 6 7 = .ok (.intervals [⟨3, 8⟩]) := by decide
  refine ⟨hunion fun v hv => (hu v hv).inner, by decide, hinter (hu.roomFor d), by decide, hdiff,
    by decide, u, hok, ?_, hselects⟩
  exact Except.ok.inj (hok.symm.trans hmade)

end

end FiniteDomains.Domain
