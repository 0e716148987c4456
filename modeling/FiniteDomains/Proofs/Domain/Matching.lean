import FiniteDomains.Change
import FiniteDomains.Proofs.Domain.Algebra

/-! Domains of one set of values, whatever represents it. All that is asked of one of them is
answered as by the other, and an operation on both gives domains of one set again. -/
namespace FiniteDomains
variable {t : ValueType}

namespace Domain
variable {d d' e e' : Domain t} {lo hi v : Int} {P P' : Int → Prop}

/-- Two domains have the same values, all of them in the universe. -/
structure Matches (d d' : Domain t) : Prop where
  left : d.Valid
  right : d'.Valid
  within : d.InUniverse
  mem : ∀ v, v ∈ d ↔ v ∈ d'

theorem InUniverse.matches_self [t.Lawful] (hu : d.InUniverse) (h : d.Consistent) : d.Matches d :=
  ⟨hu.valid h, hu.valid h, hu, fun _ => Iff.rfl⟩

theorem Matches.within_right (h : d.Matches d') : d'.InUniverse :=
  fun v hv => h.within v ((h.mem v).mpr hv)

/-! ### Asking -/

theorem min?_eq_some_iff {m : Int} (h : d.Consistent) :
    d.min? = some m ↔ IsLeast {v | v ∈ d} m := by
  refine ⟨min?_isLeast h, fun hm => ?_⟩
  have hne : d.isEmpty = false := by
    rw [← Bool.not_eq_true, isEmpty_iff h]
    exact fun hnone => hnone m hm.1
  obtain ⟨least, _, hleast, -⟩ := exists_ends hne
  rw [hleast, (min?_isLeast h hleast).unique hm]

theorem max?_eq_some_iff {m : Int} (h : d.Consistent) :
    d.max? = some m ↔ IsGreatest {v | v ∈ d} m := by
  refine ⟨max?_isGreatest h, fun hm => ?_⟩
  have hne : d.isEmpty = false := by
    rw [← Bool.not_eq_true, isEmpty_iff h]
    exact fun hnone => hnone m hm.1
  obtain ⟨_, greatest, -, hgreatest⟩ := exists_ends hne
  rw [hgreatest, (max?_isGreatest h hgreatest).unique hm]

theorem min?_congr (h : d.Consistent) (he : e.Consistent) (hmem : ∀ v, v ∈ d ↔ v ∈ e) :
    d.min? = e.min? := by
  have hset : {v | v ∈ d} = {v | v ∈ e} := Set.ext hmem
  refine Option.ext fun m => ?_
  rw [min?_eq_some_iff h, min?_eq_some_iff he, hset]

theorem max?_congr (h : d.Consistent) (he : e.Consistent) (hmem : ∀ v, v ∈ d ↔ v ∈ e) :
    d.max? = e.max? := by
  have hset : {v | v ∈ d} = {v | v ∈ e} := Set.ext hmem
  refine Option.ext fun m => ?_
  rw [max?_eq_some_iff h, max?_eq_some_iff he, hset]

theorem isSingleton_congr (h : d.Consistent) (he : e.Consistent) (hmem : ∀ v, v ∈ d ↔ v ∈ e) :
    d.isSingleton = e.isSingleton := by
  rw [isSingleton, isSingleton, min?_congr h he hmem, max?_congr h he hmem]

theorem Matches.toFinset_eq (h : d.Matches d') : d.toFinset = d'.toFinset :=
  Finset.ext fun v => by rw [mem_toFinset, mem_toFinset, h.mem v]

theorem Matches.isEmpty_eq (h : d.Matches d') : d.isEmpty = d'.isEmpty := by
  rw [Bool.eq_iff_iff, isEmpty_iff h.left.consistent, isEmpty_iff h.right.consistent]
  exact forall_congr' fun v => not_congr (h.mem v)

theorem Matches.min?_eq (h : d.Matches d') : d.min? = d'.min? :=
  min?_congr h.left.consistent h.right.consistent h.mem

theorem Matches.max?_eq (h : d.Matches d') : d.max? = d'.max? :=
  max?_congr h.left.consistent h.right.consistent h.mem

theorem Matches.isSingleton_eq (h : d.Matches d') : d.isSingleton = d'.isSingleton :=
  isSingleton_congr h.left.consistent h.right.consistent h.mem

theorem Matches.meetsRange_eq (h : d.Matches d') (lo hi : Int) :
    d.meetsRange lo hi = d'.meetsRange lo hi := by
  rw [Bool.eq_iff_iff, meetsRange_iff h.left.consistent, meetsRange_iff h.right.consistent]
  exact exists_congr fun v => and_congr_left' (h.mem v)

section
variable [t.Lawful]

theorem Matches.contains_eq (h : d.Matches d') (v : Int) : d.contains v = d'.contains v := by
  rw [Bool.eq_iff_iff, contains_iff h.left.consistent, contains_iff h.right.consistent, h.mem v]

theorem Matches.size_eq (h : d.Matches d') : d.size = d'.size := by
  -- The two sizes are computed in different ways, but inside the universe both are exact.
  rw [h.within.size_eq h.left.consistent, h.within_right.size_eq h.right.consistent,
    ← card_toFinset h.left.consistent, ← card_toFinset h.right.consistent, h.toFinset_eq]

theorem Matches.between_eq (h : d.Matches d') (he : e.Matches e') :
    Change.between d e = Change.between d' e' := by
  simp only [Change.between, h.size_eq, he.size_eq, he.isSingleton_eq, h.min?_eq, he.min?_eq,
    h.max?_eq, he.max?_eq]

/-! ### Operations -/

omit [t.Lawful] in
theorem Matches.selects (h : d.Matches d') (he : d.Selects P e) (he' : d'.Selects P' e')
    (hiff : ∀ v, P v ↔ P' v) (hsub : ∀ v, P v → v ∈ d) : e.Matches e' where
  left := he.valid
  right := he'.valid
  within := fun v hv => h.within v (hsub v ((he.mem v).mp hv))
  mem := fun v => by rw [he.mem, he'.mem, hiff]

omit [t.Lawful] in
theorem Matches.cleared (h : d.Matches d') : d.cleared.Matches d'.cleared where
  left := h.left.of_subset (cleared_consistent d) fun v hv => absurd hv (not_mem_cleared d v)
  right := h.right.of_subset (cleared_consistent d') fun v hv => absurd hv (not_mem_cleared d' v)
  within := fun v hv => absurd hv (not_mem_cleared d v)
  mem := fun v => iff_of_false (not_mem_cleared d v) (not_mem_cleared d' v)

theorem Matches.restrict (h : d.Matches d') (lo hi : Int) :
    (d.restrict lo hi).Matches (d'.restrict lo hi) :=
  h.selects (h.left.restrict_selects lo hi) (h.right.restrict_selects lo hi)
    (fun v => and_congr_left' (h.mem v)) fun _ hv => hv.1

theorem Matches.eraseRange (h : d.Matches d') (lo hi : Int) :
    (d.eraseRange lo hi).Matches (d'.eraseRange lo hi) :=
  h.selects (h.left.eraseRange_selects lo hi) (h.right.eraseRange_selects lo hi)
    (fun v => and_congr_left' (h.mem v)) fun _ hv => hv.1

theorem Matches.inter (h : d.Matches d') (he : e.Valid) : (d.inter e).Matches (d'.inter e) :=
  h.selects (h.left.inter_selects he (h.within.roomFor e))
    (h.right.inter_selects he (h.within_right.roomFor e))
    (fun v => and_congr_left' (h.mem v)) fun _ hv => hv.1

theorem Matches.diff (h : d.Matches d') (he : e.Matches e') :
    (d.diff e).Matches (d'.diff e') :=
  h.selects (h.left.diff_selects e) (h.right.diff_selects e')
    (fun v => and_congr (h.mem v) (not_congr (he.mem v))) fun _ hv => hv.1

end

end Domain

end FiniteDomains
