import FiniteDomains.Proofs.Domain.Complement

/-! Storage is canonical. Whatever constructors and operations a domain comes from, its intervals
are maximal runs or its values ascend, so that it is the only domain of its representation with its
values. -/
namespace FiniteDomains
variable {t : ValueType}

namespace Domain
variable {d e : Domain t} {rs qs : List Interval}

/-- The domains that the constructors and the operations make. Ranges are not inverted, and what is
added to intervals, collected in them, moved, complemented or complemented over has values on either
side. -/
inductive Built : Domain t → Prop
  | empty : Built empty
  | ofRange {lo hi : Int} {d : Domain t} : lo ≤ hi → t.fits lo = true → t.fits hi = true →
      ofRange lo hi = .ok d → Built d
  | ofIntervals {rs : List Interval} : (∀ r ∈ rs, r.Roomy t) → Built (ofIntervals rs)
  | ofValues {vs : List Int} : (∀ v ∈ vs, t.fits v = true) → Built (ofValues vs)
  | ofRangeSparse {lo hi : Int} {d : Domain t} : lo ≤ hi → t.fits lo = true → t.fits hi = true →
      ofRangeSparse lo hi = .ok d → Built d
  | cleared {d : Domain t} : Built d → Built d.cleared
  | insertRange {d : Domain t} {r : Interval} : Built d → r.Roomy t →
      Built (d.insertRange r.lo r.hi)
  | eraseRange {d : Domain t} (lo hi : Int) : Built d → Built (d.eraseRange lo hi)
  | restrict {d : Domain t} (lo hi : Int) : Built d → Built (d.restrict lo hi)
  | union {d e : Domain t} : Built d → Built e → (∀ v ∈ e, t.Inner v) → Built (d.union e)
  | diff {d e : Domain t} : Built d → Built e → Built (d.diff e)
  | inter {d e : Domain t} : Built d → Built e → d.RoomFor e → Built (d.inter e)
  | shift {d e : Domain t} {offset : Int} : Built d → d.Movable offset →
      d.shift offset = .ok e → Built e
  | complement {d e : Domain t} {limit : Nat} {frame : Interval} : Built d →
      (∀ v ∈ d, t.Inner v) → frame.Roomy t → d.complementUpTo limit frame = .ok e → Built e

variable [t.Lawful]

theorem Built.valid (h : d.Built) : d.Valid := by
  induction h with
  | empty => exact empty_valid
  | ofRange hle hlo hhi hout =>
    obtain ⟨d, hd, hvalid, -⟩ := ofRange_ok hle hlo hhi
    exact Except.ok.inj (hd.symm.trans hout) ▸ hvalid
  | ofIntervals hrs => exact (ofIntervals_selects hrs).valid
  | ofValues hvs => exact ofValues_valid hvs
  | ofRangeSparse hle hlo hhi hout =>
    obtain ⟨d, hd, hvalid, -⟩ := ofRangeSparse_ok hle hlo hhi
    exact Except.ok.inj (hd.symm.trans hout) ▸ hvalid
  | @cleared d _ ih => exact ⟨cleared_consistent d, fun v hv => absurd hv (not_mem_cleared d v)⟩
  | insertRange _ hr ih => exact (ih.insertRange_selects hr.le hr.lo hr.hi).valid
  | eraseRange lo hi _ ih => exact ih.eraseRange lo hi
  | restrict lo hi _ ih => exact ih.restrict lo hi
  | union _ _ hinner ihd ihe => exact (ihd.union_selects ihe hinner).valid
  | @diff d e _ _ ihd _ => exact (ihd.diff_selects e).valid
  | inter _ _ hroom ihd ihe => exact (ihd.inter_selects ihe hroom).valid
  | shift _ hmove hout ih => exact ih.of_shift hmove hout
  | complement _ hinner hframe hout ih =>
    have hfit : ∀ v ∈ _, t.fits v = true := fun v hv => (hframe.inner hv).fits
    exact (ih.complement_selects (fun _ v hv => (hinner v hv).2) hframe.le hfit hout).valid

/-- Every domain that can be made is stored in the one form for its values, so that two of one
representation with the same values are the same. Of intervals only the values matter, and none of
the order, and a domain made again of what it stores is the same. -/
theorem storage_canonical :
    (∀ d : Domain t, d.Built → d.Consistent) ∧
      (∀ d e : Domain t, d.Built → e.Built → d.isSparse = e.isSparse →
        (∀ v, v ∈ d ↔ v ∈ e) → d = e) ∧
      (∀ rs qs : List Interval, (∀ r ∈ rs, r.Roomy t) → (∀ q ∈ qs, q.Roomy t) →
        Runs.covered rs = Runs.covered qs → (ofIntervals rs : Domain t) = ofIntervals qs) ∧
      (∀ rs qs : List Interval, (∀ r ∈ rs, r.Roomy t) → rs.Perm qs →
        (ofIntervals rs : Domain t) = ofIntervals qs) ∧
      ∀ d : Domain t, d.Built → (∀ v ∈ d, t.Inner v) → d.remade = d := by
  have hsame (rs qs : List Interval) (hrs : ∀ r ∈ rs, r.Roomy t) (hqs : ∀ q ∈ qs, q.Roomy t)
      (hcovered : Runs.covered rs = Runs.covered qs) :
      (ofIntervals rs : Domain t) = ofIntervals qs := by
    have hmade := ofIntervals_selects hrs
    have hmade' := ofIntervals_selects hqs
    refine eq_of_mem_iff hmade.valid.consistent hmade'.valid.consistent rfl fun v => ?_
    rw [hmade.mem, hmade'.mem, hcovered]
  refine ⟨fun d hd => hd.valid.consistent, fun d e hd he =>
    eq_of_mem_iff hd.valid.consistent he.valid.consistent, hsame, fun rs qs hrs hperm => ?_,
    fun d hd hinner => hd.valid.remade_eq fun _ => hinner⟩
  have hcovered : Runs.covered rs = Runs.covered qs := by
    ext v
    simp only [Runs.mem_covered, hperm.mem_iff]
  exact hsame rs qs hrs (fun q hq => hrs q (hperm.mem_iff.mpr hq)) hcovered

/-- Intervals that overlap, touch and leave a gap of one value, in two orders and with the gap cut
out. -/
theorem storage_canonical_touching :
    let rs : List Interval := [⟨7, 9⟩, ⟨1, 3⟩, ⟨2, 5⟩]
    let d : Domain .int32 := ofIntervals rs
    let e : Domain .int32 := (ofIntervals [⟨5, 9⟩, ⟨1, 4⟩]).eraseRange 6 6
    d.Built ∧ e.Built ∧ d.Consistent ∧ d = .intervals [⟨1, 5⟩, ⟨7, 9⟩] ∧ e = d ∧
      ofIntervals rs.reverse = d ∧ d.remade = d := by
  intro rs d e
  have hrs : ∀ r ∈ rs, r.Roomy .int32 := by decide
  have hqs : ∀ q ∈ [(⟨5, 9⟩ : Interval), ⟨1, 4⟩], q.Roomy .int32 := by decide
  have hd : d.Built := .ofIntervals hrs
  have he : e.Built := .eraseRange 6 6 (.ofIntervals hqs)
  have hmem (v : Int) : v ∈ d ↔ 1 ≤ v ∧ v ≤ 9 ∧ v ≠ 6 := by
    rw [(ofIntervals_selects hrs).mem]
    simp [Runs.covered, rs]
    omega
  have hmem' (v : Int) : v ∈ e ↔ 1 ≤ v ∧ v ≤ 9 ∧ v ≠ 6 := by
    rw [mem_eraseRange (ofIntervals_selects hqs).valid, (ofIntervals_selects hqs).mem]
    simp [Runs.covered]
    omega
  have hinner : ∀ v ∈ d, ValueType.int32.Inner v := by
    intro v hv
    obtain ⟨hlo, hhi, -⟩ := (hmem v).mp hv
    exact (by decide : (⟨1, 9⟩ : Interval).Roomy .int32).inner ⟨hlo, hhi⟩
  obtain ⟨hconsistent, hsame, -, hperm, hremade⟩ := storage_canonical (t := .int32)
  exact ⟨hd, he, hconsistent d hd, by decide,
    hsame e d he hd rfl fun v => (hmem' v).trans (hmem v).symm,
    (hperm rs rs.reverse hrs (List.reverse_perm rs).symm).symm, hremade d hd hinner⟩

end Domain
end FiniteDomains
