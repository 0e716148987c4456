import FiniteDomains.Proofs.Domain.Algebra
import FiniteDomains.Proofs.Variable.Versions

/-! What a narrowing comes to: exactly the values that it keeps remain, or the variable is left as
it is because none of them or all of them would remain. -/
namespace FiniteDomains
variable {t : ValueType}

namespace Narrowing

def Keeps : Narrowing t → Int → Prop
  | .within lo hi, w => lo ≤ w ∧ w ≤ hi
  | .atLeast lo, w => lo ≤ w
  | .atMost hi, w => w ≤ hi
  | .outside lo hi, w => ¬(lo ≤ w ∧ w ≤ hi)
  | .equalTo u, w => w = u
  | .memberOf d, w => w ∈ d
  | .shiftedMemberOf d offset, w => w - offset ∈ d ∧ (offset = 0 ∨ t.Admissible w)

/-- The domain that a narrowing refers to is valid, and its values can be moved if they are to
be. -/
def Proper : Narrowing t → Prop
  | .memberOf d => d.Valid
  | .shiftedMemberOf d offset => d.Valid ∧ (offset ≠ 0 → d.Movable offset)
  | _ => True

/-- What is kept of some values in a domain has room beside it if it is to be added to intervals. -/
def Room (values : Domain t) : Narrowing t → Prop
  | n@(.memberOf _) | n@(.shiftedMemberOf _ _) =>
    values.isSparse = false → ∀ w ∈ values, n.Keeps w → t.Inner w
  | _ => True

/-- A narrowing to a domain moved by an offset outside the universe is refused. -/
def Refused (offset : Int) : Narrowing t → Prop
  | .shiftedMemberOf _ places => places = offset ∧ ¬t.Admissible offset
  | _ => False

/-- A proper narrowing that is not refused and that any values have room for. -/
structure Accepted (n : Narrowing t) : Prop where
  proper : n.Proper
  not_refused : ∀ offset, ¬n.Refused offset
  room : ∀ values, n.Room values

theorem accepted_outside (lo hi : Int) : (.outside lo hi : Narrowing t).Accepted :=
  ⟨trivial, fun _ href => href, fun _ => trivial⟩

theorem room_of_inUniverse [t.Lawful] {values : Domain t} (hu : values.InUniverse)
    (n : Narrowing t) : n.Room values := by
  cases n with
  | memberOf | shiftedMemberOf => exact fun _ w hw _ => (hu w hw).inner
  | _ => trivial

end Narrowing

namespace Change
variable {d e : Domain t}

theorem between_unchanged (h : e.size = d.size) : between d e = .unchanged := by
  rw [between, if_pos h]

theorem between_isChange (h : e.size ≠ d.size) : (between d e).isChange = true := by
  rw [between, if_neg h]
  split
  · rfl
  · split <;> rfl

theorem between_eq_unchanged_iff : between d e = .unchanged ↔ e.size = d.size := by
  refine ⟨fun hnone => ?_, between_unchanged⟩
  by_contra hsize
  have hchange := between_isChange hsize
  rw [hnone] at hchange
  exact absurd hchange (by decide)

theorem ends_of_not_bound (h : e.size ≠ d.size) (hb : Trigger.bound ∉ (between d e).triggers) :
    e.min? = d.min? ∧ e.max? = d.max? := by
  rw [between, if_neg h] at hb
  split at hb
  · simp [triggers] at hb
  · split at hb
    · simp [triggers] at hb
    · next hends => simpa [not_or, eq_comm] using hends

end Change

/-- A version with some values, all of them stored in the one proper form. -/
structure Version.Filled (w : Version t) : Prop where
  valid : w.values.Valid
  nonempty : w.values.isEmpty = false

namespace Variable
variable {v : Variable t} {n : Narrowing t} {level : Nat} {d : Domain t} {lo hi : Int}

/-- A domain has exactly the values that a narrowing keeps, represented as before. -/
structure Narrowed (v : Variable t) (n : Narrowing t) (d : Domain t) : Prop where
  valid : d.Valid
  mem : ∀ w, w ∈ d ↔ w ∈ v.values ∧ n.Keeps w
  isSparse : d.isSparse = v.values.isSparse

/-- What a narrowing at a level ends with. -/
inductive NarrowResult (v : Variable t) (level : Nat) (n : Narrowing t) :
    Outcome (Variable t) Change → Prop
  | emptied : (∀ w ∈ v.values, ¬n.Keeps w) → NarrowResult v level n (.emptied v)
  | kept (d : Domain t) : v.Narrowed n d → d.size = v.values.size →
      NarrowResult v level n (.done v .unchanged)
  | changed (d : Domain t) : v.Narrowed n d → d.isEmpty = false → d.size ≠ v.values.size →
      NarrowResult v level n (.done (v.setValues level d) (.between v.values d))
  | refused (offset : Int) : n.Refused offset →
      NarrowResult v level n (.fault (.shiftOutside offset))

theorem atLevel_of_le {α : Type} {next : Outcome (Variable t) α} (h : v.stamp ≤ level) :
    v.atLevel level next = next := by
  rw [atLevel, if_pos h]

theorem install_result (hs : v.stamp ≤ level) (hd : v.Narrowed n d) :
    NarrowResult v level n (v.install level d) := by
  rw [install, atLevel_of_le hs]
  cases hempty : d.isEmpty with
  | true =>
    have hnone := (Domain.isEmpty_iff hd.valid.consistent).mp hempty
    exact .emptied fun w hw hk => hnone w ((hd.mem w).mpr ⟨hw, hk⟩)
  | false =>
    by_cases hsize : d.size = v.values.size
    · rw [Change.between_unchanged hsize]
      exact .kept d hd hsize
    · simp only [Change.between_isChange hsize]
      exact .changed d hd hempty hsize

theorem liesWithin_iff (hv : v.current.Filled) :
    v.liesWithin lo hi = true ↔ ∀ w ∈ v.values, lo ≤ w ∧ w ≤ hi := by
  obtain ⟨m, g, hm, hg⟩ := Domain.exists_ends hv.nonempty
  have hleast := Domain.min?_isLeast hv.valid.consistent hm
  have hgreatest := Domain.max?_isGreatest hv.valid.consistent hg
  simp only [liesWithin, values, hm, hg, Option.any_some, Bool.and_eq_true, decide_eq_true_eq]
  constructor
  · rintro ⟨hlo, hhi⟩ w hw
    exact ⟨Int.le_trans hlo (hleast.2 hw), Int.le_trans (hgreatest.2 hw) hhi⟩
  · intro hall
    exact ⟨(hall m hleast.1).1, (hall g hgreatest.1).2⟩

theorem keepRange_result (hv : v.current.Filled) (hs : v.stamp ≤ level)
    (hkeeps : ∀ w ∈ v.values, n.Keeps w ↔ lo ≤ w ∧ w ≤ hi) :
    NarrowResult v level n (v.keepRange level lo hi) := by
  simp only [keepRange]
  split
  · next hinv =>
    refine .emptied fun w hw hk => ?_
    have hin := (hkeeps w hw).mp hk
    omega
  · split
    · next hin =>
      rw [atLevel_of_le hs]
      refine .kept v.values ⟨hv.valid, fun w => ?_, rfl⟩ rfl
      refine ⟨fun hw => ⟨hw, (hkeeps w hw).mpr ?_⟩, fun hw => hw.1⟩
      exact (liesWithin_iff hv).mp hin w hw
    · have hvalid : v.values.Valid := hv.valid
      refine install_result hs ⟨hvalid.restrict lo hi, fun w => ?_,
        Domain.restrict_isSparse _ lo hi⟩
      rw [Domain.mem_restrict hvalid.consistent]
      exact and_congr_right fun hw => (hkeeps w hw).symm

theorem dropRange_result (hv : v.current.Filled) (hs : v.stamp ≤ level) :
    NarrowResult v level (.outside lo hi) (v.dropRange level lo hi) := by
  simp only [dropRange]
  split
  · refine install_result hs ⟨hv.valid.eraseRange lo hi, fun w => ?_,
      Domain.eraseRange_isSparse _ lo hi⟩
    exact Domain.mem_eraseRange hv.valid
  · next hmeets =>
    rw [atLevel_of_le hs]
    refine .kept v.values ⟨hv.valid, fun w => ?_, rfl⟩ rfl
    refine ⟨fun hw => ⟨hw, fun hin => hmeets ?_⟩, fun hw => hw.1⟩
    exact (Domain.meetsRange_iff hv.valid.consistent).mpr ⟨w, hw, hin⟩

theorem install_inter_result [t.Lawful] (hv : v.current.Filled) (hs : v.stamp ≤ level)
    (hd : d.Valid) (hroom : v.values.isSparse = false → ∀ w ∈ v.values, n.Keeps w → t.Inner w)
    (hkeeps : ∀ w ∈ v.values, n.Keeps w ↔ w ∈ d) :
    NarrowResult v level n (v.install level (v.values.inter d)) := by
  have hvalid : v.values.Valid := hv.valid
  have hroom' : v.values.RoomFor d := fun hrep w hw hwd => hroom hrep w hw ((hkeeps w hw).mpr hwd)
  have hinter := hvalid.inter_selects hd hroom'
  refine install_result hs ⟨hinter.valid, fun w => ?_, hinter.isSparse⟩
  rw [hinter.mem]
  exact and_congr_right fun hw => (hkeeps w hw).symm

theorem keepShifted_result [t.Lawful] {offset : Int} (hv : v.current.Filled)
    (hs : v.stamp ≤ level) (hd : d.Valid) (hmove : offset ≠ 0 → d.Movable offset)
    (hroom : (Narrowing.shiftedMemberOf d offset).Room v.values) :
    NarrowResult v level (.shiftedMemberOf d offset) (v.keepShifted level d offset) := by
  simp only [keepShifted]
  split
  · next hzero =>
    refine install_inter_result hv hs hd hroom fun w _ => ?_
    simp [Narrowing.Keeps, hzero]
  · next hne =>
    by_cases hin : t.Admissible offset
    · obtain ⟨e, he, hvalid, hmem⟩ := hd.shift hin hne (hmove hne)
      simp only [he]
      refine install_inter_result hv hs hvalid hroom fun w _ => ?_
      simp [Narrowing.Keeps, hmem, hne]
    · simp only [Domain.shift_refused d hin]
      exact .refused offset ⟨rfl, hin⟩

theorem narrow_result [t.Lawful] (hv : v.current.Filled) (hs : v.stamp ≤ level)
    (hn : n.Proper) (hroom : n.Room v.values) : NarrowResult v level n (v.narrow level n) := by
  obtain ⟨m, g, hm, hg⟩ := Domain.exists_ends hv.nonempty
  have hleast := Domain.min?_isLeast hv.valid.consistent hm
  have hgreatest := Domain.max?_isGreatest hv.valid.consistent hg
  cases n with
  | within lo hi => exact keepRange_result hv hs fun w _ => Iff.rfl
  | atLeast lo =>
    simp only [narrow, values, hg]
    exact keepRange_result hv hs fun w hw => ⟨fun hlo => ⟨hlo, hgreatest.2 hw⟩, fun hin => hin.1⟩
  | atMost hi =>
    simp only [narrow, values, hm]
    exact keepRange_result hv hs fun w hw => ⟨fun hhi => ⟨hleast.2 hw, hhi⟩, fun hin => hin.2⟩
  | outside lo hi => exact dropRange_result hv hs
  | equalTo u =>
    refine keepRange_result hv hs fun w _ => ?_
    simp only [Narrowing.Keeps]
    omega
  | memberOf d =>
    have hresult := install_inter_result (n := .memberOf d) hv hs hn hroom fun w _ => Iff.rfl
    simpa [narrow, keepShifted] using hresult
  | shiftedMemberOf d offset => exact keepShifted_result hv hs hn.1 hn.2 hroom

end Variable
end FiniteDomains
