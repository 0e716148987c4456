import FiniteDomains.Proofs.Outcome
import FiniteDomains.Variable.Narrowing
import FiniteDomains.Variable.Waiting

/-! The stamps of the versions of a variable, what a change at a level can do to the versions, and
what going back to a lower level leaves of that. -/
namespace FiniteDomains

namespace Variable
variable {t : ValueType} {v v' : Variable t} {level : Nat}

/-- Behind a version with the given stamp the stamps fall, down to the root. -/
def Chained : Nat → List (Version t) → Prop
  | stamp, [] => stamp = 0
  | stamp, previous :: older => previous.stamp < stamp ∧ Chained previous.stamp older

def Ordered (v : Variable t) : Prop := Chained v.stamp v.older

def stamps (v : Variable t) : List Nat := v.versions.map Version.stamp

theorem make_versions {id : VarId} {d : Domain t} (h : make id d = .ok v) :
    v.current = ⟨d, 0, .empty, .empty, false⟩ ∧ v.older = [] := by
  simp only [make] at h
  split at h <;> cases h
  exact ⟨rfl, rfl⟩

/-! ### Going back -/

theorem restore_of_le {id : VarId} {current : Version t} (older : List (Version t))
    (h : current.stamp ≤ level) : restore id level current older = ⟨id, current, older⟩ := by
  cases older with
  | nil => rfl
  | cons previous older => rw [restore, if_neg (by omega)]

theorem restore_of_lt {id : VarId} {current previous : Version t} {older : List (Version t)}
    (h : level < current.stamp) :
    restore id level current (previous :: older) = restore id level previous older := by
  rw [restore, if_pos h]

theorem backTo_of_le (h : v.stamp ≤ level) : v.backTo level = v :=
  restore_of_le v.older h

theorem restore_backTo {low high : Nat} (h : low ≤ high) (id : VarId) (current : Version t)
    (older : List (Version t)) :
    (restore id high current older).backTo low = restore id low current older := by
  induction older generalizing current with
  | nil => rfl
  | cons previous older ih =>
    by_cases hs : high < current.stamp
    · rw [restore_of_lt hs, ih, restore_of_lt (by omega)]
    · rw [restore_of_le _ (by omega)]
      rfl

theorem backTo_backTo {low high : Nat} (h : low ≤ high) (v : Variable t) :
    (v.backTo high).backTo low = v.backTo low :=
  restore_backTo h v.id v.current v.older

theorem restore_ordered {id : VarId} {current : Version t} {older : List (Version t)}
    (h : Chained current.stamp older) :
    (restore id level current older).Ordered ∧ (restore id level current older).stamp ≤ level := by
  induction older generalizing current with
  | nil =>
    have hs : current.stamp = 0 := h
    exact ⟨h, by simp [restore, stamp, hs]⟩
  | cons previous older ih =>
    by_cases hs : level < current.stamp
    · rw [restore_of_lt hs]
      exact ih h.2
    · rw [restore_of_le _ (by omega)]
      exact ⟨h, by simpa [stamp] using hs⟩

theorem backTo_ordered (h : v.Ordered) :
    (v.backTo level).Ordered ∧ (v.backTo level).stamp ≤ level :=
  restore_ordered h

theorem count_stamps_backTo {l : Nat} (h : l ≤ level) (v : Variable t) :
    (v.backTo level).stamps.count l = v.stamps.count l := by
  obtain ⟨id, current, older⟩ := v
  simp only [backTo]
  induction older generalizing current with
  | nil => rfl
  | cons previous older ih =>
    by_cases hs : level < current.stamp
    · have hne : current.stamp ≠ l := by omega
      rw [restore_of_lt hs, ih]
      simp [stamps, versions, hne]
    · rw [restore_of_le _ (by omega)]

theorem Chained.stamp_lt {stamp : Nat} {older : List (Version t)} (h : Chained stamp older) :
    ∀ w ∈ older, w.stamp < stamp := by
  induction older generalizing stamp with
  | nil => simp
  | cons previous older ih =>
    intro w hw
    rcases List.mem_cons.mp hw with rfl | hw
    · exact h.1
    · exact Nat.lt_trans (ih h.2 w hw) h.1

theorem Chained.pairwise {stamp : Nat} {older : List (Version t)} (h : Chained stamp older) :
    (stamp :: older.map Version.stamp).Pairwise fun later earlier => earlier < later := by
  induction older generalizing stamp with
  | nil => simp
  | cons previous older ih =>
    refine List.pairwise_cons.mpr ⟨?_, ih h.2⟩
    rintro _ hl
    obtain ⟨w, hw, rfl⟩ := List.mem_map.mp hl
    exact h.stamp_lt w hw

theorem Ordered.stamps_nodup (h : v.Ordered) : v.stamps.Nodup :=
  h.pairwise.imp fun hlt => Nat.ne_of_gt hlt

theorem Ordered.stamp_le (h : v.Ordered) {l : Nat} (hl : l ∈ v.stamps) : l ≤ v.stamp := by
  obtain ⟨w, hw, rfl⟩ := List.mem_map.mp hl
  rcases List.mem_cons.mp hw with rfl | hw
  · exact Nat.le_refl _
  · exact Nat.le_of_lt (h.stamp_lt w hw)

/-! ### Changing at a level -/

/-- What a change at a level leaves: the variable as it was, another current version of that
level, or one on top of all the versions there were. -/
inductive Changed (v : Variable t) (level : Nat) : Variable t → Prop
  | same : Changed v level v
  | inPlace (w : Version t) : v.stamp = level → w.stamp = level →
      Changed v level ⟨v.id, w, v.older⟩
  | forked (w : Version t) : v.stamp < level → w.stamp = level →
      Changed v level ⟨v.id, w, v.versions⟩

theorem Changed.ordered (h : Changed v level v') (hv : v.Ordered) : v'.Ordered := by
  cases h with
  | same => exact hv
  | inPlace w hs hw => simpa only [Ordered, stamp, hw, ← hs] using hv
  | forked w hs hw => exact ⟨by simpa only [stamp, hw] using hs, hv⟩

theorem Changed.stamp_le (h : Changed v level v') (hv : v.stamp ≤ level) : v'.stamp ≤ level := by
  cases h with
  | same => exact hv
  | inPlace w _ hw => exact Nat.le_of_eq hw
  | forked w _ hw => exact Nat.le_of_eq hw

theorem Changed.backTo {low : Nat} (h : Changed v level v') (hv : v.Ordered) (hl : low < level) :
    v'.backTo low = v.backTo low := by
  cases h with
  | same => rfl
  | inPlace w hs hw =>
    obtain ⟨id, current, older⟩ := v
    cases older with
    | nil =>
      have hroot : current.stamp = 0 := hv
      simp only [stamp] at hs
      omega
    | cons previous older =>
      simp only [stamp] at hs
      simp only [Variable.backTo]
      rw [restore_of_lt (by omega), restore_of_lt (by omega)]
  | forked w hs hw =>
    have hlow : low < w.stamp := by omega
    exact restore_of_lt hlow

theorem Changed.mem_versions {w : Version t} (h : Changed v level v') (hw : w ∈ v'.versions) :
    w = v'.current ∨ w ∈ v.versions := by
  cases h with
  | same => exact .inr hw
  | inPlace u _ _ =>
    rcases List.mem_cons.mp hw with rfl | hw
    · exact .inl rfl
    · exact .inr (List.mem_cons_of_mem _ hw)
  | forked u _ _ =>
    rcases List.mem_cons.mp hw with rfl | hw
    · exact .inl rfl
    · exact .inr hw

theorem Changed.count_stamps (h : Changed v level v') (l : Nat) :
    v'.stamps.count l
      = v.stamps.count l + if v.stamp < level ∧ v'.stamp = level ∧ l = level then 1 else 0 := by
  cases h with
  | same => rw [if_neg (by omega), Nat.add_zero]
  | inPlace w hs hw =>
    rw [if_neg (by omega)]
    simp only [stamp] at hs
    simp [stamps, versions, hw, hs]
  | forked w hs hw =>
    by_cases hl : l = level
    · rw [if_pos ⟨hs, hw, hl⟩]
      simp [stamps, versions, hw, hl]
    · rw [if_neg (by omega)]
      simp [stamps, versions, hw, List.count_cons, Ne.symm hl]

theorem setValues_changed (h : v.stamp ≤ level) (d : Domain t) :
    Changed v level (v.setValues level d) := by
  simp only [setValues]
  split
  · next hs => exact .forked _ hs rfl
  · next hs =>
    have he : v.stamp = level := by omega
    exact .inPlace _ he he

theorem atLevel_leaves {α : Type} {P : Variable t → Prop} {next : Outcome (Variable t) α}
    (h : v.stamp ≤ level → next.Leaves P) : (v.atLevel level next).Leaves P := by
  simp only [atLevel]
  split
  · next hs => exact h hs
  · exact trivial

theorem install_changed (v : Variable t) (level : Nat) (d : Domain t) :
    (v.install level d).Leaves (Changed v level) := by
  apply atLevel_leaves
  intro hs
  split
  · exact .same
  · simp only [Outcome.Leaves]
    split
    · exact setValues_changed hs d
    · exact .same

theorem keepRange_changed (v : Variable t) (level : Nat) (lo hi : Int) :
    (v.keepRange level lo hi).Leaves (Changed v level) := by
  simp only [keepRange]
  split
  · exact .same
  · split
    · exact atLevel_leaves fun _ => .same
    · exact install_changed v level _

theorem keepShifted_changed (v : Variable t) (level : Nat) (d : Domain t) (offset : Int) :
    (v.keepShifted level d offset).Leaves (Changed v level) := by
  simp only [keepShifted]
  split
  · exact install_changed v level _
  · split
    · exact install_changed v level _
    · exact trivial

theorem narrow_changed (v : Variable t) (level : Nat) (narrowing : Narrowing t) :
    (v.narrow level narrowing).Leaves (Changed v level) := by
  cases narrowing with
  | within lo hi => exact keepRange_changed v level lo hi
  | atLeast lo =>
    simp only [narrow]
    split
    · exact keepRange_changed v level lo _
    · exact .same
  | atMost hi =>
    simp only [narrow]
    split
    · exact keepRange_changed v level _ hi
    · exact .same
  | outside lo hi =>
    simp only [narrow, dropRange]
    split
    · exact install_changed v level _
    · exact atLevel_leaves fun _ => .same
  | equalTo w => exact keepRange_changed v level w w
  | memberOf d => exact keepShifted_changed v level d 0
  | shiftedMemberOf d offset => exact keepShifted_changed v level d offset

theorem own_changed (h : v.stamp ≤ level) {w : Version t}
    (hw : w.stamp = (if v.stamp < level then v.fork level v.values else v).stamp) :
    Changed v level
      { (if v.stamp < level then v.fork level v.values else v) with current := w } := by
  split at hw
  · next hs =>
    rw [if_pos hs]
    exact .forked w hs hw
  · next hs =>
    have he : v.stamp = level := by omega
    rw [if_neg hs]
    exact .inPlace w he (hw.trans he)

theorem own_version (v : Variable t) (level : Nat) : ∃ own,
    (if v.stamp < level then v.fork level v.values else v) = own ∧ own.values = v.values ∧
      own.current.model = v.current.model ∧ own.current.search = v.current.search := by
  refine ⟨_, rfl, ?_⟩
  split <;> exact ⟨rfl, rfl, rfl⟩

theorem subscribe_changed (v : Variable t) (level : Nat) (c : ConstraintId) (trigger : Trigger) :
    (v.subscribe level c trigger).Leaves (Changed v level) := by
  simp only [subscribe]
  split
  · exact .same
  · exact atLevel_leaves fun hs => own_changed hs rfl

theorem unsubscribe_changed (v : Variable t) (level : Nat) (c : ConstraintId) :
    (v.unsubscribe level c).Leaves (Changed v level) := by
  simp only [unsubscribe]
  split
  · exact atLevel_leaves fun hs => own_changed hs rfl
  · exact .same

theorem activate_changed (v : Variable t) (level : Nat) (c : ConstraintId) :
    (v.activate level c).Leaves (Changed v level) := by
  simp only [activate]
  split
  · exact .same
  · exact atLevel_leaves fun hs => own_changed hs rfl

theorem deactivate_changed (v : Variable t) (level : Nat) (c : ConstraintId) :
    (v.deactivate level c).Leaves (Changed v level) := by
  simp only [deactivate]
  split
  · exact atLevel_leaves fun hs => own_changed hs rfl
  · exact .same

theorem deactivateAt_changed (v : Variable t) (level position : Nat) :
    (v.deactivateAt level position).Leaves (Changed v level) := by
  apply atLevel_leaves
  intro hs
  split
  · exact own_changed hs rfl
  · exact trivial

end Variable
end FiniteDomains
