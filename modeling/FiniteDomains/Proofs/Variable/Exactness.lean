import FiniteDomains.Proofs.Domain.Matching
import FiniteDomains.Proofs.Variable.Refinement

/-! Narrowing a variable is exact and atomic. Of a variable that requests have made, in whatever
order and at whatever levels, a narrowing leaves either exactly the values that it describes, with
the change reported for what it is, or the variable as it was. -/
namespace FiniteDomains
variable {t : ValueType}

namespace Narrowing

/-- The values that a narrowing describes. Those of a moved domain are meant without regard to the
universe. -/
def Describes : Narrowing t → Int → Prop
  | .shiftedMemberOf d offset, w => w - offset ∈ d
  | n, w => n.Keeps w

theorem keeps_iff_describes {w : Int} (n : Narrowing t) (hw : t.Admissible w) :
    n.Keeps w ↔ n.Describes w := by
  -- Moving a domain drops no values of the universe.
  cases n with
  | shiftedMemberOf d offset =>
    simp only [Keeps, Describes]
    exact and_iff_left (.inr hw)
  | _ => exact Iff.rfl

theorem proper_shifted [t.Lawful] {d : Domain t} {offset : Int} (hd : d.Consistent)
    (hu : d.InUniverse) (hoffset : t.Admissible offset) : (shiftedMemberOf d offset).Proper :=
  ⟨hu.valid hd, fun _ => hu.movable hoffset⟩

end Narrowing

/-! ### Reported changes -/

namespace Change
variable {d e : Domain t}

/-- How a change of some values to a part of them is to be reported. -/
structure Reports (change : Change) (before after : Set Int) : Prop where
  ground : change = .ground ↔ ∃ w, after = {w}
  bound : change = .bound ↔ (¬∃ w, after = {w}) ∧
    ¬∀ w, (IsLeast after w → IsLeast before w) ∧ (IsGreatest after w → IsGreatest before w)
  any : change = .any ↔ (¬∃ w, after = {w}) ∧
    ∀ w, (IsLeast after w → IsLeast before w) ∧ (IsGreatest after w → IsGreatest before w)

theorem isSingleton_iff_values (h : d.Consistent) :
    d.isSingleton = true ↔ ∃ w, {u | u ∈ d} = ({w} : Set Int) := by
  have hcoe : (d.toFinset : Set Int) = {u | u ∈ d} := Set.ext fun u => Domain.mem_toFinset
  simp only [Domain.isSingleton_iff h, ← hcoe, Finset.coe_eq_singleton]

theorem ends_eq_iff (hd : d.Consistent) (he : e.Consistent) (hne : e.isEmpty = false) :
    (e.min? = d.min? ∧ e.max? = d.max?) ↔ ∀ w,
      (IsLeast {u | u ∈ e} w → IsLeast {u | u ∈ d} w) ∧
        (IsGreatest {u | u ∈ e} w → IsGreatest {u | u ∈ d} w) := by
  simp only [← Domain.min?_eq_some_iff hd, ← Domain.min?_eq_some_iff he,
    ← Domain.max?_eq_some_iff hd, ← Domain.max?_eq_some_iff he]
  obtain ⟨m, g, hm, hg⟩ := Domain.exists_ends hne
  constructor
  · rintro ⟨hmin, hmax⟩ w
    exact ⟨hmin.symm.trans, hmax.symm.trans⟩
  · intro h
    exact ⟨hm.trans ((h m).1 hm).symm, hg.trans ((h g).2 hg).symm⟩

theorem between_reports (hd : d.Consistent) (he : e.Consistent) (hne : e.isEmpty = false)
    (hsize : e.size ≠ d.size) : (between d e).Reports {u | u ∈ d} {u | u ∈ e} := by
  have hone := isSingleton_iff_values he
  have hends := ends_eq_iff hd he hne
  rw [between, if_neg hsize]
  split
  · next hsing =>
    have hsingle := hone.mp hsing
    exact ⟨by simpa using hsingle, by simp [hsingle], by simp [hsingle]⟩
  · next hmany =>
    have hmore := mt hone.mpr hmany
    split
    · next hmoved =>
      have hdiffer := mt hends.mpr (by tauto)
      exact ⟨by simp [hmore], by simp only [hmore, hdiffer, true_iff]; tauto, by simp [hdiffer]⟩
    · next hkept =>
      have hsame := hends.mp (by tauto)
      exact ⟨by simp [hmore], iff_of_false (by simp) fun hb => hb.2 hsame,
        iff_of_true rfl ⟨hmore, hsame⟩⟩

end Change

namespace Variable
variable {v v' : Variable t} {n : Narrowing t} {level : Nat}

/-! ### The variables that requests make -/

/-- What one request to a variable, at any level, can leave of it. -/
inductive Step (v : Variable t) : Variable t → Prop
  | narrow {v' : Variable t} (level : Nat) (n : Narrowing t) :
      n.Proper → n.Room v.values → (v.narrow level n).left? = some v' → Step v v'
  | subscribe {v' : Variable t} (level : Nat) (c : ConstraintId) (trigger : Trigger) :
      (v.subscribe level c trigger).left? = some v' → Step v v'
  | unsubscribe {v' : Variable t} (level : Nat) (c : ConstraintId) :
      (v.unsubscribe level c).left? = some v' → Step v v'
  | activate {v' : Variable t} (level : Nat) (c : ConstraintId) :
      (v.activate level c).left? = some v' → Step v v'
  | deactivate {v' : Variable t} (level : Nat) (c : ConstraintId) :
      (v.deactivate level c).left? = some v' → Step v v'
  | deactivateAt {v' : Variable t} (level position : Nat) :
      (v.deactivateAt level position).left? = some v' → Step v v'
  | backTo (level : Nat) : Step v (v.backTo level)

/-- The variables that some requests make of new ones. -/
inductive Attained : Variable t → Prop
  | made {id : VarId} {d : Domain t} {v : Variable t} : d.Valid → make id d = .ok v → Attained v
  | step {v v' : Variable t} : Attained v → v.Step v' → Attained v'

theorem Changed.eq_of_lt (h : v.Changed level v') (hlt : level < v.stamp) : v' = v := by
  cases h with
  | same => rfl
  | inPlace w hs hw => omega
  | forked w hs hw => omega

theorem Changed.filled (h : v.Changed level v') (hv : ∀ w ∈ v.versions, w.Filled)
    (hcurrent : v'.current.Filled) : ∀ w ∈ v'.versions, w.Filled := by
  intro w hw
  rcases h.mem_versions hw with rfl | hw
  · exact hcurrent
  · exact hv w hw

theorem filled_of_left {α : Type} {outcome : Outcome (Variable t) α}
    (hv : ∀ w ∈ v.versions, w.Filled) (hchanged : outcome.Leaves (v.Changed level))
    (hfilled : v.stamp ≤ level → outcome.Leaves fun u => u.current.Filled)
    (hleft : outcome.left? = some v') : ∀ w ∈ v'.versions, w.Filled := by
  have hchange := hchanged.of_left? hleft
  by_cases hs : v.stamp ≤ level
  · exact hchange.filled hv ((hfilled hs).of_left? hleft)
  · rw [hchange.eq_of_lt (by omega)]
    exact hv

theorem NarrowResult.leaves {outcome : Outcome (Variable t) Change}
    (h : NarrowResult v level n outcome) (hv : v.current.Filled) (hs : v.stamp ≤ level) :
    outcome.Leaves fun u => u.current.Filled := by
  cases h with
  | emptied _ => exact hv
  | kept d _ _ => exact hv
  | changed d hd hne hsize => exact ((hd.part hne hsize).refined hs).filled
  | refused offset _ => trivial

theorem deactivateAt_leaves (hv : v.current.Filled) (position : Nat) :
    (v.deactivateAt level position).Leaves fun u => u.current.Filled := by
  apply atLevel_leaves
  intro _
  obtain ⟨own, hown, hvalues, -, -⟩ := v.own_version level
  have hsame : own.current.values = v.current.values := hvalues
  rw [hown]
  split
  · exact ⟨hsame ▸ hv.valid, hsame ▸ hv.nonempty⟩
  · trivial

theorem Step.filled [t.Lawful] (h : v.Step v') (hv : ∀ w ∈ v.versions, w.Filled) :
    ∀ w ∈ v'.versions, w.Filled := by
  have hcurrent : v.current.Filled := hv _ List.mem_cons_self
  cases h with
  | narrow level n hn hroom hleft =>
    refine filled_of_left hv (narrow_changed v level n) (fun hs => ?_) hleft
    exact (narrow_result hcurrent hs hn hroom).leaves hcurrent hs
  | subscribe level c trigger hleft =>
    refine filled_of_left hv (subscribe_changed v level c trigger) (fun hs => ?_) hleft
    exact (subscribe_refined hcurrent hs c trigger).leaves.imp fun _ hr => hr.filled
  | unsubscribe level c hleft =>
    refine filled_of_left hv (unsubscribe_changed v level c) (fun hs => ?_) hleft
    exact (unsubscribe_refined hcurrent hs c).leaves.imp fun _ hr => hr.filled
  | activate level c hleft =>
    refine filled_of_left hv (activate_changed v level c) (fun hs => ?_) hleft
    exact (activate_refined hcurrent hs c).leaves.imp fun _ hr => hr.filled
  | deactivate level c hleft =>
    refine filled_of_left hv (deactivate_changed v level c) (fun hs => ?_) hleft
    exact (deactivate_refined hcurrent hs c).leaves.imp fun _ hr => hr.filled
  | deactivateAt level position hleft =>
    refine filled_of_left hv (deactivateAt_changed v level position) (fun _ => ?_) hleft
    exact deactivateAt_leaves hcurrent position
  | backTo level =>
    intro w hw
    exact hv w ((v.backTo_versions level).subset hw)

theorem Attained.filled [t.Lawful] (h : v.Attained) : ∀ w ∈ v.versions, w.Filled := by
  induction h with
  | @made id d v hd hmake =>
    simp only [make] at hmake
    split at hmake
    · cases hmake
    · next hne =>
      cases hmake
      intro w hw
      obtain rfl := List.mem_singleton.mp hw
      exact ⟨hd, by simpa using hne⟩
  | step _ hstep ih => exact hstep.filled ih

/-! ### What a narrowing does -/

/-- What a narrowing at a level that loses some values, but not all, makes of a variable: the
values left are stored in the one form of their representation, and the rest is as it was but for a
new version if the current one is of a lower level. -/
structure Installed (v : Variable t) (level : Nat) (n : Narrowing t) (v' : Variable t) : Prop where
  valid : v'.values.Valid
  mem : ∀ w, w ∈ v'.values ↔ w ∈ v.values ∧ n.Describes w
  isSparse : v'.values.isSparse = v.values.isSparse
  stamp : v'.stamp = level
  older : v'.older = if v.stamp < level then v.versions else v.older
  id : v'.id = v.id
  model : v'.current.model = v.current.model
  search : v'.current.search = v.current.search

theorem setValues_stamp (hs : v.stamp ≤ level) (d : Domain t) :
    (v.setValues level d).stamp = level := by
  simp only [setValues]
  split
  · rfl
  · next hnot => exact Nat.le_antisymm hs (Nat.le_of_not_lt hnot)

theorem setValues_older (v : Variable t) (level : Nat) (d : Domain t) :
    (v.setValues level d).older = if v.stamp < level then v.versions else v.older := by
  simp only [setValues]
  split <;> rfl

theorem setValues_id (v : Variable t) (level : Nat) (d : Domain t) :
    (v.setValues level d).id = v.id := by
  simp only [setValues]
  split <;> rfl

theorem Narrowed.installed {d : Domain t} (h : v.Narrowed n d) (hs : v.stamp ≤ level)
    (hkeeps : ∀ w ∈ v.values, n.Keeps w ↔ n.Describes w) :
    v.Installed level n (v.setValues level d) where
  valid := by rw [setValues_values]; exact h.valid
  mem := fun w => by rw [setValues_values, h.mem, and_congr_right (hkeeps w)]
  isSparse := by rw [setValues_values]; exact h.isSparse
  stamp := setValues_stamp hs d
  older := setValues_older v level d
  id := setValues_id v level d
  model := setValues_model v level d
  search := setValues_search v level d

end Variable
end FiniteDomains
