import FiniteDomains.Proofs.Wakeup.ActiveSet
import FiniteDomains.Proofs.Wakeup.History

/-! Switching constraints on and off, seen from outside. What is parked never shows: an active set
answers and goes on like a plain list of its active constraints. It holds no constraint twice, and
parked are just those that have been switched off and left so since the set was last copied. -/
namespace FiniteDomains

inductive SwitchRequest where
  | activate (c : ConstraintId)
  | deactivate (c : ConstraintId)
  | deactivateAt (position : Nat)
  | copy
  deriving DecidableEq, Repr

namespace ActiveSet
variable {s : ActiveSet} {a c : ConstraintId} {position : Nat}

/-- Changes a set as a request asks for. The answer is a flag or nothing, or that the position is
not that of an active constraint; then the set stays as it is. To copy is to go on with the copy. -/
def perform (s : ActiveSet) : SwitchRequest → Except Fault (Option Bool) × ActiveSet
  | .activate c => (.ok (some (s.activate c).1), (s.activate c).2)
  | .deactivate c => (.ok (some (s.deactivate c).1), (s.deactivate c).2)
  | .deactivateAt position =>
    match s.deactivateAt position with
    | .ok s => (.ok none, s)
    | .error cause => (.error cause, s)
  | .copy => (.ok none, s.copy)

def performListed (listed : List ConstraintId) :
    SwitchRequest → Except Fault (Option Bool) × List ConstraintId
  | .activate c =>
    if c ∈ listed then (.ok (some false), listed) else (.ok (some true), listed ++ [c])
  | .deactivate c =>
    if c ∈ listed then (.ok (some true), swapRemove listed (listed.idxOf c))
    else (.ok (some false), listed)
  | .deactivateAt position =>
    if position < listed.length then (.ok none, swapRemove listed position)
    else (.error (.notActive position listed.length), listed)
  | .copy => (.ok none, listed)

def listedAfter (requests : List SwitchRequest) : List ConstraintId :=
  (recordAll performListed [] requests).2

theorem listedAfter_concat {requests : List SwitchRequest} {request : SwitchRequest} :
    listedAfter (requests ++ [request]) = (performListed (listedAfter requests) request).2 := by
  simp only [listedAfter, recordAll_concat]

/-- A request takes a constraint from a plain list. -/
def SwitchesOff (listed : List ConstraintId) (c : ConstraintId) : SwitchRequest → Prop
  | .deactivate a => a = c ∧ c ∈ listed
  | .deactivateAt position => listed[position]? = some c
  | _ => False

/-- A constraint has been switched off and since then neither been switched on again nor has the
set been copied. -/
def LeftOff (c : ConstraintId) : List SwitchRequest → Prop :=
  Stands (fun before request => SwitchesOff (listedAfter before) c request)
    fun request => request = .activate c ∨ request = .copy

/-! ### The active constraints -/

theorem idxOf?_of_mem {listed : List ConstraintId} (h : c ∈ listed) :
    listed.idxOf? c = some (listed.idxOf c) := by
  induction listed with
  | nil => cases h
  | cons first rest ih =>
    rw [List.idxOf?_cons, List.idxOf_cons]
    by_cases hfirst : first = c
    · simp [hfirst]
    · have hrest := (List.mem_cons.mp h).resolve_left (Ne.symm hfirst)
      have hne : (first == c) = false := by simpa using hfirst
      simp [hne, ih hrest]

/-- A set answers a request like the list of its active constraints, which changes alike. -/
theorem perform_eq_listed (s : ActiveSet) (request : SwitchRequest) :
    (s.perform request).1 = (performListed s.active request).1 ∧
      (s.perform request).2.active = (performListed s.active request).2 := by
  cases request with
  | activate c =>
    by_cases hc : c ∈ s.active
    · simp [perform, performListed, hc, activate_of_active]
    · obtain ⟨hflag, hactive, -⟩ := activate_of_not_active hc
      simp [perform, performListed, hc, hflag, hactive]
  | deactivate c =>
    by_cases hc : c ∈ s.active
    · have hactive := (park_eq (List.getElem?_idxOf hc)).1
      simp [perform, performListed, hc, deactivate_of_active (idxOf?_of_mem hc), hactive]
    · simp [perform, performListed, hc, deactivate_of_not_active]
  | deactivateAt position =>
    by_cases hp : position < s.activeCount
    · simp [perform, performListed, hp, deactivateAt_of_lt, active_park]
    · simp [perform, performListed, hp, deactivateAt]
  | copy => simp [perform, performListed]

/-! ### The parked ones -/

theorem nodup_iff : s.entries.Nodup ↔
    s.active.Nodup ∧ s.parked.Nodup ∧ ∀ c ∈ s.active, c ∉ s.parked := by
  rw [← active_append_parked, List.nodup_append]
  refine and_congr_right fun _ => and_congr_right fun _ => ?_
  exact ⟨fun h c hc hparked => h c hc c hparked rfl,
    fun h c hc d hd heq => h c hc (heq ▸ hd)⟩

theorem nodup_activate (h : s.entries.Nodup) (c : ConstraintId) :
    (s.activate c).2.entries.Nodup := by
  by_cases hc : c ∈ s.active
  · rwa [activate_of_active hc]
  · obtain ⟨-, hactive, hparked⟩ := activate_of_not_active hc
    obtain ⟨hnodup, hnodup', hapart⟩ := nodup_iff.mp h
    rw [nodup_iff, hactive, hparked.nodup_iff]
    refine ⟨?_, hnodup'.erase c, fun a ha => ?_⟩
    · rw [(List.perm_append_singleton c s.active).nodup_iff]
      exact List.nodup_cons.mpr ⟨hc, hnodup⟩
    · rw [hparked.mem_iff]
      rcases List.mem_append.mp ha with ha | ha
      · exact fun hout => hapart a ha (List.mem_of_mem_erase hout)
      · rw [List.mem_singleton.mp ha]
        exact hnodup'.not_mem_erase

theorem mem_parked_activate (h : s.entries.Nodup) :
    a ∈ (s.activate c).2.parked ↔ a ∈ s.parked ∧ c ≠ a := by
  obtain ⟨-, hnodup, hapart⟩ := nodup_iff.mp h
  by_cases hc : c ∈ s.active
  · rw [activate_of_active hc]
    exact ⟨fun ha => ⟨ha, fun heq => hapart c hc (heq ▸ ha)⟩, And.left⟩
  · obtain ⟨-, -, hparked⟩ := activate_of_not_active hc
    rw [hparked.mem_iff, hnodup.mem_erase_iff, and_comm, ne_comm]

theorem nodup_park (h : s.entries.Nodup) (hc : s.active[position]? = some c) :
    (s.park position).entries.Nodup := by
  obtain ⟨hactive, hparked⟩ := park_eq hc
  have hperm : (s.park position).entries.Perm s.entries := by
    rw [← active_append_parked, ← s.active_append_parked, hactive, hparked]
    exact List.perm_middle.trans ((swapRemove_perm hc).append_right s.parked)
  exact hperm.nodup_iff.mpr h

theorem nodup_copy (h : s.entries.Nodup) : s.copy.entries.Nodup :=
  (nodup_iff.mp h).1

theorem nodup_perform (h : s.entries.Nodup) (request : SwitchRequest) :
    (s.perform request).2.entries.Nodup ∧ ∀ c, c ∈ (s.perform request).2.parked ↔
      SwitchesOff s.active c request ∨
        c ∈ s.parked ∧ ¬(request = .activate c ∨ request = .copy) := by
  cases request with
  | activate a =>
    refine ⟨nodup_activate h a, fun c => ?_⟩
    simp [perform, mem_parked_activate h, SwitchesOff]
  | deactivate a =>
    by_cases ha : a ∈ s.active
    · have hget := List.getElem?_idxOf ha
      have hoff : s.deactivate a = (true, s.park (s.active.idxOf a)) :=
        deactivate_of_active (idxOf?_of_mem ha)
      simp only [perform, hoff]
      refine ⟨nodup_park h hget, fun c => ?_⟩
      rw [(park_eq hget).2, List.mem_cons]
      constructor
      · rintro (rfl | hc)
        · exact .inl ⟨rfl, ha⟩
        · exact .inr ⟨hc, by simp⟩
      · rintro (⟨rfl, -⟩ | ⟨hc, -⟩)
        · exact .inl rfl
        · exact .inr hc
    · simp only [perform, deactivate_of_not_active ha]
      refine ⟨h, fun c => ?_⟩
      have hoff : ¬SwitchesOff s.active c (.deactivate a) := fun ⟨heq, hc⟩ => ha (heq ▸ hc)
      simp [hoff]
  | deactivateAt position =>
    by_cases hp : position < s.activeCount
    · have hlt : position < s.active.length := by rwa [length_active]
      have hget := List.getElem?_eq_getElem hlt
      simp only [perform, deactivateAt_of_lt hp]
      refine ⟨nodup_park h hget, fun c => ?_⟩
      rw [(park_eq hget).2, List.mem_cons, SwitchesOff, hget, Option.some_inj, eq_comm]
      simp
    · have hnone : s.active[position]? = none := by simpa using hp
      simp only [perform, deactivateAt, if_neg hp]
      exact ⟨h, fun c => by simp [SwitchesOff, hnone]⟩
  | copy =>
    refine ⟨nodup_copy h, fun c => ?_⟩
    simp [perform, SwitchesOff]

/-! ### Sequences of requests -/

/-- What some requests leave of the empty set. -/
structure Mirrors (requests : List SwitchRequest) (s : ActiveSet) : Prop where
  active_eq : s.active = listedAfter requests
  nodup : s.entries.Nodup
  parked_iff : ∀ c, c ∈ s.parked ↔ LeftOff c requests

theorem mirrors_recordAll (requests : List SwitchRequest) :
    (recordAll perform .empty requests).1 = (recordAll performListed [] requests).1 ∧
      Mirrors requests (recordAll perform .empty requests).2 := by
  induction requests using List.reverseRecOn with
  | nil => exact ⟨rfl, rfl, List.nodup_nil, fun c => iff_of_false List.not_mem_nil not_stands_nil⟩
  | append_singleton requests request ih =>
    obtain ⟨hrecord, h⟩ := ih
    simp only [recordAll_concat]
    generalize recordAll perform .empty requests = record at hrecord h
    obtain ⟨hanswer, hactive⟩ := record.2.perform_eq_listed request
    obtain ⟨hnodup, hparked⟩ := nodup_perform h.nodup request
    rw [h.active_eq] at hanswer hactive hparked
    refine ⟨by rw [hrecord, hanswer]; rfl, ?_, hnodup, fun c => ?_⟩
    · rw [hactive, listedAfter_concat]
    · rw [hparked, h.parked_iff, LeftOff, stands_concat]

/-- In every sequence of requests a set answers like a plain list of constraints and has the entries
of that list active, in its order. No constraint is stored twice, and what was switched off and
neither switched on again nor left behind by copying is still parked. -/
theorem parked_unobservable (requests : List SwitchRequest) :
    let s := (recordAll perform .empty requests).2
    (recordAll perform .empty requests).1 = (recordAll performListed [] requests).1 ∧
      s.active = listedAfter requests ∧ s.activeCount = (listedAfter requests).length ∧
      (∀ c, s.isActive c = true ↔ c ∈ listedAfter requests) ∧ (listedAfter requests).Nodup ∧
      s.entries.Nodup ∧ ∀ c, c ∈ s.parked ↔ LeftOff c requests := by
  intro s
  obtain ⟨hrecord, h⟩ : _ ∧ Mirrors requests s := mirrors_recordAll requests
  have hactive := h.active_eq
  refine ⟨hrecord, hactive, ?_, fun c => ?_, ?_, h.nodup, h.parked_iff⟩
  · rw [← hactive, length_active]
  · rw [isActive_iff, hactive]
  · rw [← hactive]
    exact (nodup_iff.mp h.nodup).1

/-- Switched on again, a constraint comes last, whether it is still parked or was left behind. -/
example : (recordAll perform .empty [.activate 4, .activate 7, .activate 9, .deactivate 4,
    .activate 4, .deactivate 9, .copy, .activate 9]).2 = ⟨[4, 7, 9], 3, by decide⟩ := by decide

end ActiveSet
end FiniteDomains
