import FiniteDomains.Proofs.Domain.Enumeration

/-! The values next to a given one. The next value above and the next one below are found in either
representation, whether or not the given value is a member, and each of two neighbours finds the
other. So going on to the next value passes through all of them. -/
namespace FiniteDomains
variable {t : ValueType}

theorem first_match {α : Type} {R : α → α → Prop} {l : List α} {p : α → Bool} {a b : α}
    (h : l.Pairwise R) (ha : l.find? p = some a) (hb : b ∈ l) (hp : p b = true) :
    b = a ∨ R a b := by
  obtain ⟨-, before, behind, rfl, hnone⟩ := List.find?_eq_some_iff_append.mp ha
  obtain ⟨-, hlater, -⟩ := List.pairwise_append.mp h
  rcases List.mem_append.mp hb with hb | hb
  · exact absurd hp (by simpa using hnone b hb)
  · rcases List.mem_cons.mp hb with rfl | hb
    · exact .inl rfl
    · exact .inr ((List.pairwise_cons.mp hlater).1 b hb)

namespace Points
variable {vs : List Int} {v w : Int}

theorem next?_isLeast (h : Consistent vs) (hw : next? v vs = some w) :
    IsLeast {u | u ∈ vs ∧ v < u} w := by
  refine ⟨⟨List.mem_of_find?_eq_some hw, by simpa using List.find?_some hw⟩, ?_⟩
  rintro u ⟨hu, hlt⟩
  rcases first_match (consistent_iff.mp h) hw hu (decide_eq_true hlt) with rfl | hless
  · exact Int.le_refl _
  · exact Int.le_of_lt hless

theorem prev?_isGreatest (h : Consistent vs) (hw : prev? v vs = some w) :
    IsGreatest {u | u ∈ vs ∧ u < v} w := by
  have hdown : vs.reverse.Pairwise (· > ·) := List.pairwise_reverse.mpr (consistent_iff.mp h)
  have hmem : w ∈ vs := List.mem_reverse.mp (List.mem_of_find?_eq_some hw)
  refine ⟨⟨hmem, by simpa using List.find?_some hw⟩, ?_⟩
  rintro u ⟨hu, hlt⟩
  rcases first_match hdown hw (List.mem_reverse.mpr hu) (decide_eq_true hlt) with rfl | hless
  · exact Int.le_refl _
  · exact Int.le_of_lt hless

theorem next?_append {before rest : List Int} (h : Consistent (before ++ v :: rest)) :
    next? v (before ++ v :: rest) = rest.head? := by
  obtain ⟨-, hlater, hfar⟩ := List.pairwise_append.mp (consistent_iff.mp h)
  have hnone : before.find? (fun w => decide (v < w)) = none := by
    rw [List.find?_eq_none]
    intro w hw
    have hlt := hfar w hw v List.mem_cons_self
    rw [decide_eq_true_eq]
    omega
  rw [next?, List.find?_append, hnone, Option.none_or, List.find?_cons_of_neg (by simp)]
  cases rest with
  | nil => rfl
  | cons w rest =>
    have hlt : v < w := (List.pairwise_cons.mp hlater).1 w List.mem_cons_self
    exact List.find?_cons_of_pos (decide_eq_true hlt)

end Points

namespace Runs
variable {rs : List Interval} {v w : Int}

theorem next?_isLeast (h : Consistent rs) (hfit : t.fits (v + 1) = true)
    (hw : next? t v rs = some w) : IsLeast {u | u ∈ covered rs ∧ v < u} w := by
  simp only [next?, ValueType.succ_eq hfit, Option.map_eq_some_iff] at hw
  obtain ⟨r, hr, rfl⟩ := hw
  obtain ⟨hmem, hreach⟩ := mem_of_reaching hr
  have hle := h.le hmem
  refine ⟨⟨⟨r, hmem, by omega, by omega⟩, by omega⟩, ?_⟩
  rintro u ⟨hu, hlt⟩
  obtain ⟨q, hq, hqle⟩ := h.exists_reaching hu (v := v + 1) (by omega)
  cases hr.symm.trans hq
  exact max_le hqle (by omega)

theorem next?_none (hfit : t.fits (v + 1) = true) (hnone : next? t v rs = none) :
    ∀ u ∈ covered rs, u ≤ v := by
  simp only [next?, ValueType.succ_eq hfit, Option.map_eq_none_iff, reaching?,
    List.find?_eq_none, decide_eq_true_eq] at hnone
  rintro u ⟨r, hr, -, hhi⟩
  have hend := hnone r hr
  omega

theorem prev?_isGreatest (h : Consistent rs) (hfit : t.fits (v - 1) = true)
    (hw : prev? t v rs = some w) : IsGreatest {u | u ∈ covered rs ∧ u < v} w := by
  simp only [prev?, ValueType.pred_eq hfit, Option.map_eq_some_iff] at hw
  obtain ⟨r, hr, rfl⟩ := hw
  have hmem : r ∈ rs := List.mem_reverse.mp (List.mem_of_find?_eq_some hr)
  have hstart : r.lo ≤ v - 1 := by simpa using List.find?_some hr
  have hle := h.le hmem
  have hdown : rs.reverse.Pairwise fun r q => q.hi + 1 < r.lo :=
    List.pairwise_reverse.mpr (consistent_iff.mp h).2
  refine ⟨⟨⟨r, hmem, by omega, by omega⟩, by omega⟩, ?_⟩
  rintro u ⟨⟨q, hq, hlo, hhi⟩, hlt⟩
  have hbelow : decide (q.lo ≤ v - 1) = true := decide_eq_true (by omega)
  rcases first_match hdown hr (List.mem_reverse.mpr hq) hbelow with rfl | hfar
  · exact le_min hhi (by omega)
  · exact le_min (by omega) (by omega)

theorem prev?_none (hfit : t.fits (v - 1) = true) (hnone : prev? t v rs = none) :
    ∀ u ∈ covered rs, v ≤ u := by
  simp only [prev?, ValueType.pred_eq hfit, Option.map_eq_none_iff, List.find?_eq_none,
    List.mem_reverse, decide_eq_true_eq] at hnone
  rintro u ⟨r, hr, hlo, -⟩
  have hstart := hnone r hr
  omega

end Runs

namespace Domain
variable {d : Domain t} {v w : Int}

/-- The value above `v` is there to look for intervals from. Listed values are found without it. -/
def RoomAbove (d : Domain t) (v : Int) : Prop := d.isSparse = false → t.fits (v + 1) = true

def RoomBelow (d : Domain t) (v : Int) : Prop := d.isSparse = false → t.fits (v - 1) = true

def following (d : Domain t) (current : Option Int) : Option (Int × Option Int) :=
  current.map fun v => (v, d.next? v)

/-! ### Above -/

theorem next?_isLeast (h : d.Consistent) (hroom : d.RoomAbove v) (hw : d.next? v = some w) :
    IsLeast {u | u ∈ d ∧ v < u} w := by
  cases d with
  | intervals rs => exact Runs.next?_isLeast h (hroom rfl) hw
  | sparse vs => exact Points.next?_isLeast h hw

theorem next?_none (hroom : d.RoomAbove v) (hnone : d.next? v = none) : ∀ u ∈ d, u ≤ v := by
  cases d with
  | intervals rs => exact Runs.next?_none (hroom rfl) hnone
  | sparse vs =>
    have hnone : vs.find? (fun w => decide (v < w)) = none := hnone
    simpa [List.find?_eq_none] using hnone

theorem next?_eq_some_iff (h : d.Consistent) (hroom : d.RoomAbove v) :
    d.next? v = some w ↔ IsLeast {u | u ∈ d ∧ v < u} w := by
  refine ⟨next?_isLeast h hroom, fun hw => ?_⟩
  cases hnext : d.next? v with
  | none =>
    have hle := next?_none hroom hnext w hw.1.1
    exact absurd hw.1.2 (by omega)
  | some u => rw [(next?_isLeast h hroom hnext).unique hw]

theorem next?_eq_none_iff (h : d.Consistent) (hroom : d.RoomAbove v) :
    d.next? v = none ↔ ∀ u ∈ d, u ≤ v := by
  refine ⟨next?_none hroom, fun hall => Option.eq_none_iff_forall_ne_some.mpr fun w hw => ?_⟩
  obtain ⟨hmem, hlt⟩ := (next?_isLeast h hroom hw).1
  exact absurd (hall w hmem) (by omega)

/-! ### Below -/

theorem prev?_isGreatest (h : d.Consistent) (hroom : d.RoomBelow v) (hw : d.prev? v = some w) :
    IsGreatest {u | u ∈ d ∧ u < v} w := by
  cases d with
  | intervals rs => exact Runs.prev?_isGreatest h (hroom rfl) hw
  | sparse vs => exact Points.prev?_isGreatest h hw

theorem prev?_none (hroom : d.RoomBelow v) (hnone : d.prev? v = none) : ∀ u ∈ d, v ≤ u := by
  cases d with
  | intervals rs => exact Runs.prev?_none (hroom rfl) hnone
  | sparse vs =>
    have hnone : vs.reverse.find? (fun w => decide (w < v)) = none := hnone
    simpa [List.find?_eq_none] using hnone

theorem prev?_eq_some_iff (h : d.Consistent) (hroom : d.RoomBelow v) :
    d.prev? v = some w ↔ IsGreatest {u | u ∈ d ∧ u < v} w := by
  refine ⟨prev?_isGreatest h hroom, fun hw => ?_⟩
  cases hprev : d.prev? v with
  | none =>
    have hle := prev?_none hroom hprev w hw.1.1
    exact absurd hw.1.2 (by omega)
  | some u => rw [(prev?_isGreatest h hroom hprev).unique hw]

theorem prev?_eq_none_iff (h : d.Consistent) (hroom : d.RoomBelow v) :
    d.prev? v = none ↔ ∀ u ∈ d, v ≤ u := by
  refine ⟨prev?_none hroom, fun hall => Option.eq_none_iff_forall_ne_some.mpr fun w hw => ?_⟩
  obtain ⟨hmem, hlt⟩ := (prev?_isGreatest h hroom hw).1
  exact absurd (hall w hmem) (by omega)

/-! ### Two neighbours -/

theorem Valid.room_between [t.Lawful] (h : d.Valid) (hv : v ∈ d) (hw : w ∈ d) (hlt : v < w) :
    d.RoomAbove v ∧ d.RoomBelow w := by
  have hfit (u : Int) (hlo : v ≤ u) (hhi : u ≤ w) : t.fits u = true :=
    ValueType.Lawful.fits_between v w u (h.fits v hv) (h.fits w hw) hlo hhi
  exact ⟨fun _ => hfit _ (by omega) (by omega), fun _ => hfit _ (by omega) (by omega)⟩

theorem Valid.prev?_of_next? [t.Lawful] (h : d.Valid) (hv : v ∈ d) (hroom : d.RoomAbove v)
    (hnext : d.next? v = some w) : d.prev? w = some v := by
  obtain ⟨⟨hw, hlt⟩, hleast⟩ := next?_isLeast h.consistent hroom hnext
  obtain ⟨-, hback⟩ := h.room_between hv hw hlt
  refine (prev?_eq_some_iff h.consistent hback).mpr ⟨⟨hv, hlt⟩, ?_⟩
  rintro u ⟨hu, hless⟩
  by_contra hbetween
  have hle := hleast ⟨hu, by omega⟩
  omega

theorem Valid.next?_of_prev? [t.Lawful] (h : d.Valid) (hw : w ∈ d) (hroom : d.RoomBelow w)
    (hprev : d.prev? w = some v) : d.next? v = some w := by
  obtain ⟨⟨hv, hlt⟩, hgreatest⟩ := prev?_isGreatest h.consistent hroom hprev
  obtain ⟨hback, -⟩ := h.room_between hv hw hlt
  refine (next?_eq_some_iff h.consistent hback).mpr ⟨⟨hw, hlt⟩, ?_⟩
  rintro u ⟨hu, hmore⟩
  by_contra hbetween
  have hle := hgreatest ⟨hu, by omega⟩
  omega

/-! ### From one value to the next -/

theorem Valid.next?_eq (h : d.Valid) (hroom : d.RoomAbove v) :
    d.next? v = Points.next? v d.values := by
  have hlisted (w : Int) :
      Points.next? v d.values = some w ↔ IsLeast {u | u ∈ d.values ∧ v < u} w :=
    next?_eq_some_iff (d := (.sparse d.values : Domain t)) h.values_consistent nofun
  refine Option.ext fun w => ?_
  rw [next?_eq_some_iff h.consistent hroom, hlisted]
  simp only [h.mem_values]

theorem Valid.yields_following {before rest : List Int} (h : d.Valid)
    (hroom : ∀ v ∈ d, d.RoomAbove v) (hsplit : d.values = before ++ rest) :
    Yields d.following rest.head? rest := by
  -- Wherever the values are entered, going on to the next one passes through all that are left.
  induction rest generalizing before with
  | nil => rfl
  | cons v rest ih =>
    have hv : v ∈ d := h.mem_values.mp (by simp [hsplit])
    have hcons : Points.Consistent (before ++ v :: rest) := hsplit ▸ h.values_consistent
    have hnext : d.next? v = rest.head? := by
      rw [h.next?_eq (hroom v hv), hsplit, Points.next?_append hcons]
    have hbehind : d.values = (before ++ [v]) ++ rest := by simp [hsplit]
    refine ⟨rest.head?, ?_, ih hbehind⟩
    rw [List.head?_cons, following, Option.map_some, hnext]

/-- The next value above is the least member above, and the next one below the greatest member below
where there is one. Of two neighbours each is next to the other, and going on to the next value from
the least one passes through all values. -/
theorem neighbours_exact [t.Lawful] (h : d.Valid) :
    (∀ v, d.RoomAbove v → (∀ w, d.next? v = some w ↔ IsLeast {u | u ∈ d ∧ v < u} w) ∧
      (d.next? v = none ↔ ∀ u ∈ d, u ≤ v)) ∧
    (∀ v, d.RoomBelow v → (∀ w, d.prev? v = some w ↔ IsGreatest {u | u ∈ d ∧ u < v} w) ∧
      (d.prev? v = none ↔ ∀ u ∈ d, v ≤ u)) ∧
    (∀ v ∈ d, d.RoomAbove v → ∀ w, d.next? v = some w → d.prev? w = some v) ∧
    (∀ w ∈ d, d.RoomBelow w → ∀ v, d.prev? w = some v → d.next? v = some w) ∧
    ((∀ v ∈ d, d.RoomAbove v) → Yields d.following d.min? d.values) := by
  refine ⟨fun v hroom => ⟨fun w => next?_eq_some_iff h.consistent hroom,
      next?_eq_none_iff h.consistent hroom⟩,
    fun v hroom => ⟨fun w => prev?_eq_some_iff h.consistent hroom,
      prev?_eq_none_iff h.consistent hroom⟩,
    fun v hv hroom w => h.prev?_of_next? hv hroom,
    fun w hw hroom v => h.next?_of_prev? hw hroom, fun hroom => ?_⟩
  rw [h.enumerated.min?_eq]
  exact h.yields_following hroom (List.nil_append _).symm

/-- Over a hole, from a value in it and from outside. -/
theorem neighbours_exact_hole :
    let d : Domain .int32 := .intervals [⟨1, 2⟩, ⟨10, 12⟩]
    let e : Domain .int32 := .sparse [1, 4, 9]
    d.Valid ∧ e.Valid ∧ (∀ v ∈ d, d.RoomAbove v) ∧ IsLeast {u | u ∈ d ∧ 5 < u} 10 ∧
      (∀ u ∈ d, u ≤ 12) ∧ IsGreatest {u | u ∈ d ∧ u < 50} 12 ∧ d.prev? 10 = some 2 ∧
      Yields d.following (some 1) [1, 2, 10, 11, 12] ∧ IsLeast {u | u ∈ e ∧ 5 < u} 9 ∧
      e.next? 4 = some 9 := by
  intro d e
  have hdu : d.InUniverse := by decide
  have hd : d.Valid := hdu.valid (by decide)
  have he : e.Valid := InUniverse.valid (by decide) (by decide)
  have hroom : ∀ v ∈ d, d.RoomAbove v := fun v hv _ => (hdu v hv).inner.2
  obtain ⟨habove, hbelow, hback, -, hyields⟩ := neighbours_exact hd
  obtain ⟨habove', -, -, hforth, -⟩ := neighbours_exact he
  have hleast : IsLeast {u | u ∈ d ∧ 5 < u} 10 :=
    ((habove 5 fun _ => by decide).1 10).mp (by decide)
  have hlast : ∀ u ∈ d, u ≤ 12 := (habove 12 fun _ => by decide).2.mp (by decide)
  have hgreatest : IsGreatest {u | u ∈ d ∧ u < 50} 12 :=
    ((hbelow 50 fun _ => by decide).1 12).mp (by decide)
  have hprev : d.prev? 10 = some 2 := hback 2 (by decide) (hroom 2 (by decide)) 10 (by decide)
  have hleast' : IsLeast {u | u ∈ e ∧ 5 < u} 9 := ((habove' 5 nofun).1 9).mp (by decide)
  have hnext : e.next? 4 = some 9 := hforth 9 (by decide) nofun 4 (by decide)
  exact ⟨hd, he, hroom, hleast, hlast, hgreatest, hprev, hyields hroom, hleast', hnext⟩

end Domain
end FiniteDomains
