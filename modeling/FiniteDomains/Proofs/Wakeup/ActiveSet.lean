import FiniteDomains.Proofs.Wakeup.SwapRemove
import FiniteDomains.Wakeup.ActiveSet

/-! What the operations of an active set do to the active entries and to the parked ones. Whichever
way an entry takes to the end of the active ones, the others keep their order. -/
namespace FiniteDomains.ActiveSet
variable {s : ActiveSet} {c : ConstraintId} {position : Nat}

theorem active_append_parked (s : ActiveSet) : s.active ++ s.parked = s.entries :=
  List.take_append_drop _ _

@[simp] theorem length_active (s : ActiveSet) : s.active.length = s.activeCount := by
  rw [active, List.length_take, Nat.min_eq_left s.activeCount_le]

@[simp] theorem isActive_iff : s.isActive c = true ↔ c ∈ s.active := by simp [isActive]

@[simp] theorem active_copy (s : ActiveSet) : s.copy.active = s.active := by
  simp [copy, active, List.take_take]

@[simp] theorem parked_copy (s : ActiveSet) : s.copy.parked = [] := by
  simp [copy, parked]

theorem active_parked_of {active parked : List ConstraintId} (h : s.entries = active ++ parked)
    (hcount : s.activeCount = active.length) : s.active = active ∧ s.parked = parked := by
  simp [ActiveSet.active, ActiveSet.parked, h, hcount]

/-! ### Switching on -/

theorem entriesWith_eq (s : ActiveSet) (c : ConstraintId) :
    ∃ rest, s.entriesWith c = s.active ++ c :: rest ∧ rest.Perm (s.parked.erase c) := by
  -- The constraint comes first behind the active entries; what was parked besides it stays so.
  have hentries := s.active_append_parked
  have hlen := s.length_active
  simp only [entriesWith]
  split
  · next position hposition =>
    obtain ⟨hlt, hget, -⟩ := List.idxOf?_eq_some_iff.mp hposition
    obtain ⟨before, behind, hparked, rfl⟩ :=
      exists_split (List.getElem?_eq_some_iff.mpr ⟨hlt, hget⟩)
    rw [← hentries, hparked, ← hlen]
    cases before with
    | nil => exact ⟨behind, by rw [List.length_nil, Nat.add_zero, swapAt_self]; rfl, by simp⟩
    | cons first between =>
      refine ⟨between ++ first :: behind, swapAt_append s.active between behind first c, ?_⟩
      have hperm : (first :: between ++ c :: behind).Perm (c :: (between ++ first :: behind)) :=
        (List.perm_middle).trans ((List.perm_middle.symm).cons c)
      simpa using (hperm.erase c).symm
  · next hnone hend =>
    have hparked : s.parked = [] := List.drop_eq_nil_of_le (List.getElem?_eq_none_iff.mp hend)
    rw [← hentries, hparked]
    exact ⟨[], by simp, by simp⟩
  · next displaced hnone hfirst =>
    have hout : c ∉ s.parked := List.idxOf?_eq_none_iff.mp hnone
    obtain ⟨hlt, hget⟩ := List.getElem?_eq_some_iff.mp hfirst
    have hparked : s.parked = displaced :: s.entries.drop (s.activeCount + 1) := by
      rw [parked, List.drop_eq_getElem_cons hlt, hget]
    refine ⟨s.entries.drop (s.activeCount + 1) ++ [displaced], ?_, ?_⟩
    · rw [List.set_eq_take_append_cons_drop, if_pos hlt]
      simp [active]
    · rw [List.erase_of_not_mem hout, hparked]
      exact List.perm_append_singleton displaced _

theorem activate_of_active (h : c ∈ s.active) : s.activate c = (false, s) := by
  rw [activate, if_pos (isActive_iff.mpr h)]

theorem activate_of_not_active (h : c ∉ s.active) :
    (s.activate c).1 = true ∧ (s.activate c).2.active = s.active ++ [c] ∧
      (s.activate c).2.parked.Perm (s.parked.erase c) := by
  obtain ⟨rest, hentries, hperm⟩ := s.entriesWith_eq c
  have hlists : (s.activate c).2.active = s.active ++ [c] ∧ (s.activate c).2.parked = rest := by
    rw [activate, if_neg (mt isActive_iff.mp h)]
    exact active_parked_of (by simp [hentries]) (by simp)
  refine ⟨?_, hlists.1, hlists.2 ▸ hperm⟩
  rw [activate, if_neg (mt isActive_iff.mp h)]

/-! ### Switching off -/

theorem park_eq (h : s.active[position]? = some c) :
    (s.park position).active = swapRemove s.active position ∧
      (s.park position).parked = c :: s.parked := by
  obtain ⟨before, behind, hactive, rfl⟩ := exists_split h
  have hentries := s.active_append_parked
  have hlen := s.length_active
  rw [hactive] at hentries hlen ⊢
  rcases List.eq_nil_or_concat behind with rfl | ⟨between, last, rfl⟩
  · rw [swapRemove_last]
    have hcount : s.activeCount - 1 = before.length := by
      simp only [List.length_append, List.length_singleton] at hlen
      omega
    refine active_parked_of ?_ hcount
    simp [park, hcount, swapAt_self, ← hentries]
  · rw [List.concat_eq_append] at hentries hlen ⊢
    rw [swapRemove_append]
    have hcount : s.activeCount - 1 = before.length + (between.length + 1) := by
      simp only [List.length_append, List.length_cons, List.length_nil] at hlen
      omega
    refine active_parked_of ?_ ?_
    · have hsplit : s.entries = before ++ c :: (between ++ last :: s.parked) := by simp [← hentries]
      simp [park, hcount, hsplit, swapAt_append]
    · simp [park, hcount]

theorem active_park (h : position < s.activeCount) :
    (s.park position).active = swapRemove s.active position := by
  rw [← length_active] at h
  exact (park_eq (List.getElem?_eq_getElem h)).1

theorem deactivate_of_active (h : s.active.idxOf? c = some position) :
    s.deactivate c = (true, s.park position) := by
  simp only [deactivate, h]

theorem deactivate_of_not_active (h : c ∉ s.active) : s.deactivate c = (false, s) := by
  simp only [deactivate, List.idxOf?_eq_none_iff.mpr h]

theorem deactivateAt_of_lt (h : position < s.activeCount) :
    s.deactivateAt position = .ok (s.park position) := by
  rw [deactivateAt, if_pos h]

end FiniteDomains.ActiveSet
