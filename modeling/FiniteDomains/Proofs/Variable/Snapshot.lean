import FiniteDomains.Proofs.Variable.Refinement

/-! What a variable shows without going back: its values, and the constraints that wait for it now.
A request is answered by that and changes that alike, whether it is made in a version of its own
or in the current one. Parked constraints are not part of it, because a new version starts with
none. -/
namespace FiniteDomains
variable {t : ValueType}

namespace ActiveSet
variable {s s' : ActiveSet}

theorem isActive_eq (h : s.active = s'.active) (c : ConstraintId) :
    s.isActive c = s'.isActive c := by
  rw [isActive, isActive, h]

theorem activate_active (h : s.active = s'.active) (c : ConstraintId) :
    (s.activate c).1 = (s'.activate c).1 ∧ (s.activate c).2.active = (s'.activate c).2.active := by
  by_cases hc : c ∈ s.active
  · rw [activate_of_active hc, activate_of_active (h ▸ hc)]
    exact ⟨rfl, h⟩
  · obtain ⟨hflag, hactive, -⟩ := activate_of_not_active hc
    obtain ⟨hflag', hactive', -⟩ := activate_of_not_active (h ▸ hc)
    exact ⟨hflag.trans hflag'.symm, by rw [hactive, hactive', h]⟩

theorem activeCount_eq (h : s.active = s'.active) : s.activeCount = s'.activeCount := by
  rw [← s.length_active, h, s'.length_active]

theorem park_active (h : s.active = s'.active) {position : Nat} (hp : position < s.activeCount) :
    (s.park position).active = (s'.park position).active := by
  rw [active_park hp, active_park (activeCount_eq h ▸ hp), h]

theorem deactivate_active (h : s.active = s'.active) (c : ConstraintId) :
    (s.deactivate c).1 = (s'.deactivate c).1 ∧
      (s.deactivate c).2.active = (s'.deactivate c).2.active := by
  simp only [deactivate, h]
  split
  · next position hposition =>
    obtain ⟨hlt, -⟩ := List.idxOf?_eq_some_iff.mp hposition
    rw [← h, length_active] at hlt
    exact ⟨rfl, park_active h hlt⟩
  · exact ⟨rfl, h⟩

theorem deactivateAt_active (h : s.active = s'.active) (position : Nat) :
    Agree (fun r r' => r.active = r'.active) (s.deactivateAt position)
      (s'.deactivateAt position) := by
  simp only [deactivateAt, activeCount_eq h]
  split
  · next hp => exact .ok (park_active h (activeCount_eq h ▸ hp))
  · exact .error _

end ActiveSet

/-- What there is to see of a variable without going back. -/
structure Snapshot (t : ValueType) where
  id : VarId
  values : Domain t
  model : Subscriptions
  active : List ConstraintId
  deriving DecidableEq, Repr

namespace Variable
variable {v v' : Variable t} {level level' : Nat} {α : Type}

def snapshot (v : Variable t) : Snapshot t :=
  ⟨v.id, v.values, v.current.model, v.current.search.active⟩

/-- Two variables show the same now, whatever their versions are. -/
def SameNow (v v' : Variable t) : Prop := v.snapshot = v'.snapshot

theorem SameNow.values (h : v.SameNow v') : v.values = v'.values := congrArg Snapshot.values h

theorem SameNow.model (h : v.SameNow v') : v.current.model = v'.current.model :=
  congrArg Snapshot.model h

theorem SameNow.active (h : v.SameNow v') : v.current.search.active = v'.current.search.active :=
  congrArg Snapshot.active h

@[simp] theorem snapshot_setValues (v : Variable t) (level : Nat) (d : Domain t) :
    (v.setValues level d).snapshot = { v.snapshot with values := d } := by
  simp only [setValues]
  split <;> rfl

@[simp] theorem snapshot_setModel (v : Variable t) (model : Subscriptions) :
    (v.setModel model).snapshot = { v.snapshot with model := model } := rfl

@[simp] theorem snapshot_setSearch (v : Variable t) (search : ActiveSet) :
    (v.setSearch search).snapshot = { v.snapshot with active := search.active } := rfl

theorem snapshot_own (v : Variable t) (level : Nat) :
    (if v.stamp < level then v.fork level v.values else v).snapshot = v.snapshot := by
  split <;> rfl

theorem SameNow.liesWithin_eq (h : v.SameNow v') (lo hi : Int) :
    v.liesWithin lo hi = v'.liesWithin lo hi := by
  rw [liesWithin, liesWithin, h.values]

theorem SameNow.toWake_eq (h : v.SameNow v') (change : Change) :
    v.toWake change = v'.toWake change := by
  simp only [toWake, h.model, h.active]

/-! ### Narrowing -/

section
variable (h : v.SameNow v') (hs : v.stamp ≤ level) (hs' : v'.stamp ≤ level')
include h hs hs'

theorem SameNow.install (d : Domain t) :
    (v.install level d).Matches SameNow (v'.install level' d) := by
  rw [Variable.install, Variable.install, atLevel_of_le hs, atLevel_of_le hs', h.values]
  split
  · exact .emptied h
  · refine .done _ ?_
    split
    · rw [SameNow, snapshot_setValues, snapshot_setValues, h]
    · exact h

theorem SameNow.unchanged (a : α) :
    (v.atLevel level (.done v a)).Matches SameNow (v'.atLevel level' (.done v' a)) := by
  rw [atLevel_of_le hs, atLevel_of_le hs']
  exact .done a h

theorem SameNow.keepRange (lo hi : Int) :
    (v.keepRange level lo hi).Matches SameNow (v'.keepRange level' lo hi) := by
  simp only [Variable.keepRange, h.liesWithin_eq, h.values]
  split
  · exact .emptied h
  · split
    · exact h.unchanged hs hs' _
    · exact h.install hs hs' _

theorem SameNow.keepShifted (d : Domain t) (offset : Int) :
    (v.keepShifted level d offset).Matches SameNow (v'.keepShifted level' d offset) := by
  simp only [Variable.keepShifted, h.values]
  split
  · exact h.install hs hs' _
  · split
    · exact h.install hs hs' _
    · exact .fault _

theorem SameNow.narrow (n : Narrowing t) :
    (v.narrow level n).Matches SameNow (v'.narrow level' n) := by
  cases n with
  | within lo hi => exact h.keepRange hs hs' lo hi
  | atLeast lo =>
    simp only [Variable.narrow, h.values]
    split
    · exact h.keepRange hs hs' lo _
    · exact .emptied h
  | atMost hi =>
    simp only [Variable.narrow, h.values]
    split
    · exact h.keepRange hs hs' _ hi
    · exact .emptied h
  | outside lo hi =>
    simp only [Variable.narrow, dropRange, h.values]
    split
    · exact h.install hs hs' _
    · exact h.unchanged hs hs' _
  | equalTo w => exact h.keepRange hs hs' w w
  | memberOf d => exact h.keepShifted hs hs' d 0
  | shiftedMemberOf d offset => exact h.keepShifted hs hs' d offset

/-! ### Constraints -/

theorem SameNow.atOwnVersion {next : Variable t → Outcome (Variable t) α}
    (hnext : ∀ own own', own.SameNow own' → (next own).Matches SameNow (next own')) :
    (v.atOwnVersion level next).Matches SameNow (v'.atOwnVersion level' next) := by
  rw [Variable.atOwnVersion, Variable.atOwnVersion, atLevel_of_le hs, atLevel_of_le hs']
  apply hnext
  rw [SameNow, snapshot_own, snapshot_own]
  exact h

theorem SameNow.subscribe (c : ConstraintId) (trigger : Trigger) :
    (v.subscribe level c trigger).Matches SameNow (v'.subscribe level' c trigger) := by
  simp only [Variable.subscribe, h.model]
  split
  · exact .done _ h
  · refine h.atOwnVersion hs hs' fun own own' hown => ?_
    rw [hown.model]
    exact .done _ (by rw [SameNow, snapshot_setModel, snapshot_setModel, hown])

theorem SameNow.unsubscribe (c : ConstraintId) :
    (v.unsubscribe level c).Matches SameNow (v'.unsubscribe level' c) := by
  simp only [Variable.unsubscribe, h.model]
  split
  · refine h.atOwnVersion hs hs' fun own own' hown => ?_
    rw [hown.model]
    exact .done _ (by rw [SameNow, snapshot_setModel, snapshot_setModel, hown])
  · exact .done _ h

omit h hs hs' in
theorem SameNow.setSearch (h : v.SameNow v') {search search' : ActiveSet}
    (hactive : search.active = search'.active) :
    (v.setSearch search).SameNow (v'.setSearch search') := by
  rw [SameNow, snapshot_setSearch, snapshot_setSearch, h, hactive]

omit hs hs' in
theorem SameNow.ownSearch_active : v.ownSearch.active = v'.ownSearch.active := by
  rw [Variable.ownSearch_active, Variable.ownSearch_active, h.active]

theorem SameNow.activate (c : ConstraintId) :
    (v.activate level c).Matches SameNow (v'.activate level' c) := by
  simp only [Variable.activate, ActiveSet.isActive_eq h.active]
  split
  · exact .done _ h
  · refine h.atOwnVersion hs hs' fun own own' hown => ?_
    obtain ⟨hflag, hactive⟩ := ActiveSet.activate_active hown.ownSearch_active c
    rw [hflag]
    exact .done _ (hown.setSearch hactive)

theorem SameNow.deactivate (c : ConstraintId) :
    (v.deactivate level c).Matches SameNow (v'.deactivate level' c) := by
  simp only [Variable.deactivate, ActiveSet.isActive_eq h.active]
  split
  · refine h.atOwnVersion hs hs' fun own own' hown => ?_
    obtain ⟨hflag, hactive⟩ := ActiveSet.deactivate_active hown.ownSearch_active c
    rw [hflag]
    exact .done _ (hown.setSearch hactive)
  · exact .done _ h

theorem SameNow.deactivateAt (position : Nat) :
    (v.deactivateAt level position).Matches SameNow (v'.deactivateAt level' position) := by
  refine h.atOwnVersion hs hs' fun own own' hown => ?_
  have hagree := ActiveSet.deactivateAt_active hown.ownSearch_active position
  generalize own.ownSearch.deactivateAt position = r at hagree
  generalize own'.ownSearch.deactivateAt position = r' at hagree
  cases hagree with
  | ok hactive => exact .done _ (hown.setSearch hactive)
  | error cause => exact .fault cause

end

end Variable
end FiniteDomains
