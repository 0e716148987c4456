import FiniteDomains.Proofs.Variable.Narrowing
import FiniteDomains.Proofs.Wakeup.ActiveSet

/-! The values in the versions of a variable: every request to it leaves a current version that is
filled and has no values that it did not have, so each version has values of the one before. -/
namespace FiniteDomains.Variable
variable {t : ValueType} {v v' : Variable t} {level : Nat} {d : Domain t} {n : Narrowing t}

/-- The values of each version are values of the versions before it. -/
def Nested (v : Variable t) : Prop :=
  v.versions.Pairwise fun later earlier => ∀ w ∈ later.values, w ∈ earlier.values

/-- A change at a level that leaves a filled version and adds no values to it. -/
structure Refined (v : Variable t) (level : Nat) (v' : Variable t) : Prop where
  changed : v.Changed level v'
  filled : v'.current.Filled
  subset : ∀ w ∈ v'.values, w ∈ v.values

theorem Refined.refl (hv : v.current.Filled) (level : Nat) : v.Refined level v :=
  ⟨.same, hv, fun _ hw => hw⟩

theorem Refined.nested (h : v.Refined level v') (hv : v.Nested) : v'.Nested := by
  obtain ⟨hchanged, -, hsub⟩ := h
  cases hchanged with
  | same => exact hv
  | inPlace w hs hw =>
    obtain ⟨hcurrent, holder⟩ := List.pairwise_cons.mp hv
    exact List.pairwise_cons.mpr ⟨fun u hu i hi => hcurrent u hu i (hsub i hi), holder⟩
  | forked w hs hw =>
    refine List.pairwise_cons.mpr ⟨fun u hu i hi => ?_, hv⟩
    rcases List.mem_cons.mp hu with rfl | hu
    · exact hsub i hi
    · exact (List.pairwise_cons.mp hv).1 u hu i (hsub i hi)

theorem backTo_versions (v : Variable t) (level : Nat) :
    (v.backTo level).versions <:+ v.versions := by
  obtain ⟨id, current, older⟩ := v
  simp only [backTo, versions]
  induction older generalizing current with
  | nil => exact List.suffix_refl _
  | cons previous older ih =>
    simp only [restore]
    split
    · exact (ih previous).trans (List.suffix_cons current _)
    · exact List.suffix_refl _

theorem Nested.backTo (h : v.Nested) (level : Nat) : (v.backTo level).Nested :=
  h.sublist (v.backTo_versions level).sublist

/-! ### Narrowing -/

@[simp] theorem setValues_values (v : Variable t) (level : Nat) (d : Domain t) :
    (v.setValues level d).values = d := by
  simp only [setValues]
  split <;> rfl

@[simp] theorem setValues_model (v : Variable t) (level : Nat) (d : Domain t) :
    (v.setValues level d).current.model = v.current.model := by
  simp only [setValues]
  split <;> rfl

@[simp] theorem setValues_search (v : Variable t) (level : Nat) (d : Domain t) :
    (v.setValues level d).current.search = v.current.search := by
  simp only [setValues]
  split <;> rfl

/-- A domain with less values than a variable has, but some. -/
structure Part (v : Variable t) (d : Domain t) : Prop where
  valid : d.Valid
  nonempty : d.isEmpty = false
  subset : ∀ w ∈ d, w ∈ v.values
  isSparse : d.isSparse = v.values.isSparse
  size_ne : d.size ≠ v.values.size

theorem Narrowed.part {n : Narrowing t} (h : v.Narrowed n d) (hne : d.isEmpty = false)
    (hsize : d.size ≠ v.values.size) : v.Part d :=
  ⟨h.valid, hne, fun w hw => ((h.mem w).mp hw).1, h.isSparse, hsize⟩

theorem Part.cardinality_lt (h : v.Part d) (hv : v.values.Valid) :
    d.cardinality < v.values.cardinality := by
  rcases Domain.eq_or_cardinality_lt h.valid.consistent hv.consistent h.isSparse h.subset
    with heq | hlt
  · exact absurd (congrArg Domain.size heq) h.size_ne
  · exact hlt

theorem Part.toFinset_ssubset (hd : v.Part d) (hv : v.values.Valid) :
    d.toFinset ⊂ v.values.toFinset := by
  have hlt := hd.cardinality_lt hv
  rw [← Domain.card_toFinset hd.valid.consistent, ← Domain.card_toFinset hv.consistent] at hlt
  have hsub : d.toFinset ⊆ v.values.toFinset := fun w hw =>
    Domain.mem_toFinset.mpr (hd.subset w (Domain.mem_toFinset.mp hw))
  exact hsub.ssubset_of_ne fun heq => Nat.ne_of_lt hlt (congrArg Finset.card heq)

theorem Part.refined (hd : v.Part d) (hs : v.stamp ≤ level) :
    v.Refined level (v.setValues level d) := by
  have hvalues : (v.setValues level d).current.values = d := setValues_values v level d
  refine ⟨setValues_changed hs d, ⟨?_, ?_⟩, fun w hw => hd.subset w ?_⟩
  · rw [hvalues]
    exact hd.valid
  · rw [hvalues]
    exact hd.nonempty
  · rwa [setValues_values] at hw

/-! ### Constraints -/

theorem atOwnVersion_refined {α : Type} {next : Variable t → Outcome (Variable t) α}
    (hv : v.current.Filled) (hs : v.stamp ≤ level)
    (hnext : ∀ own : Variable t, own.current.search = v.current.search → ∃ w a,
      next own = .done { own with current := w } a ∧ w.stamp = own.stamp ∧ w.values = own.values) :
    (v.atOwnVersion level next).Ends (fun v' _ => v.Refined level v') (v.Refined level) := by
  obtain ⟨own, hown, hvalues, -, hsearch⟩ := v.own_version level
  obtain ⟨w, a, hout, hstamp, hsame⟩ := hnext own hsearch
  have hw : w.values = v.current.values := hsame.trans hvalues
  rw [atOwnVersion, atLevel_of_le hs, hown, hout]
  subst hown
  refine ⟨own_changed hs hstamp, ⟨?_, ?_⟩, fun u hu => ?_⟩
  · exact hw ▸ hv.valid
  · exact hw ▸ hv.nonempty
  · have hu' : u ∈ w.values := hu
    rwa [hw] at hu'

theorem subscribe_refined (hv : v.current.Filled) (hs : v.stamp ≤ level) (c : ConstraintId)
    (trigger : Trigger) :
    (v.subscribe level c trigger).Ends (fun v' _ => v.Refined level v') (v.Refined level) := by
  rw [subscribe]
  split
  · exact .refl hv level
  · exact atOwnVersion_refined hv hs fun own _ => ⟨_, _, rfl, rfl, rfl⟩

theorem unsubscribe_refined (hv : v.current.Filled) (hs : v.stamp ≤ level) (c : ConstraintId) :
    (v.unsubscribe level c).Ends (fun v' _ => v.Refined level v') (v.Refined level) := by
  rw [unsubscribe]
  split
  · exact atOwnVersion_refined hv hs fun own _ => ⟨_, _, rfl, rfl, rfl⟩
  · exact .refl hv level

theorem activate_refined (hv : v.current.Filled) (hs : v.stamp ≤ level) (c : ConstraintId) :
    (v.activate level c).Ends (fun v' _ => v.Refined level v') (v.Refined level) := by
  rw [activate]
  split
  · exact .refl hv level
  · exact atOwnVersion_refined hv hs fun own _ => ⟨_, _, rfl, rfl, rfl⟩

theorem deactivate_refined (hv : v.current.Filled) (hs : v.stamp ≤ level) (c : ConstraintId) :
    (v.deactivate level c).Ends (fun v' _ => v.Refined level v') (v.Refined level) := by
  rw [deactivate]
  split
  · exact atOwnVersion_refined hv hs fun own _ => ⟨_, _, rfl, rfl, rfl⟩
  · exact .refl hv level

theorem ownSearch_active (v : Variable t) : v.ownSearch.active = v.current.search.active := by
  simp only [ownSearch]
  split
  · exact ActiveSet.active_copy _
  · rfl

theorem deactivateAt_refined (hv : v.current.Filled) (hs : v.stamp ≤ level) {position : Nat}
    (hp : position < v.current.search.activeCount) :
    (v.deactivateAt level position).Ends (fun v' _ => v.Refined level v') (v.Refined level) := by
  refine atOwnVersion_refined hv hs fun own hsearch => ?_
  have hown : position < own.ownSearch.activeCount := by
    rw [← ActiveSet.length_active, ownSearch_active, hsearch, ActiveSet.length_active]
    exact hp
  simp only [ActiveSet.deactivateAt_of_lt hown]
  exact ⟨_, _, rfl, rfl, rfl⟩

end FiniteDomains.Variable
