import FiniteDomains.Proofs.Store.Updates

/-! Going back to a level undoes every sequence of requests made above it. Each request keeps what
would be restored at the level, and entering a level does not change what is restored below. -/
namespace FiniteDomains

/-- A request that does not go back to a level or below it. -/
def StoreRequest.StaysAbove {t : ValueType} (low : Nat) : StoreRequest t → Prop
  | .backtrack level => low < level
  | _ => True

namespace Store
variable {t : ValueType} {α : Type} {s s' : Store t} {reply : StoreReply}

/-- One variable has been changed at the current level, which may have changed the queue too. -/
inductive ChangedOne (s : Store t) : Store t → Prop
  | at (x : VarId) (v v' : Variable t) (q : WakeQueue) : s.vars[x]? = some v →
      v.Changed s.level v' → ChangedOne s { s.replaced x v v' with woken := q }

theorem ChangedOne.layered (hc : s.ChangedOne s') (h : s.Layered) : s'.Layered := by
  obtain ⟨x, v, v', q, hv, hvc⟩ := hc
  exact (h.replaced hv hvc).withWoken q

theorem ChangedOne.level (hc : s.ChangedOne s') : s'.level = s.level := by
  obtain ⟨x, v, v', q, hv, hvc⟩ := hc
  rfl

theorem ChangedOne.restored (hc : s.ChangedOne s') (h : s.Layered) {low : Nat}
    (hl : low < s.level) : s'.restored low = s.restored low := by
  obtain ⟨x, v, v', q, hv, hvc⟩ := hc
  exact h.restored_replaced hv hvc hl

theorem Layered.update_changedOne (h : s.Layered) (x : VarId)
    {change : Variable t → Nat → Outcome (Variable t) α}
    (hchange : ∀ v level, (change v level).Leaves (v.Changed level)) :
    (s.update x change).Leaves s.ChangedOne := by
  cases hv : s.vars[x]? with
  | none => rw [update_missing hv]; trivial
  | some v =>
    have hleaves := hchange v s.level
    rw [h.update_eq hv]
    cases hout : change v s.level with
    | done v' a => rw [hout] at hleaves; exact .at x v v' s.woken hv hleaves
    | emptied v' => rw [hout] at hleaves; exact .at x v v' s.woken hv hleaves
    | fault => trivial

theorem Layered.narrow_changedOne (h : s.Layered) (x : VarId) (narrowing : Narrowing t) :
    (s.narrow x narrowing).Leaves s.ChangedOne := by
  have hleaves := h.update_changedOne x fun v level => v.narrow_changed level narrowing
  simp only [narrow]
  cases hout : s.update x fun v level => v.narrow level narrowing with
  | done s₁ change =>
    rw [hout] at hleaves
    obtain ⟨y, v, v', q, hv, hvc⟩ := hleaves
    obtain ⟨q', hq⟩ := wake_eq { s.replaced y v v' with woken := q } x change
    simp only [Outcome.andThen, Outcome.Leaves, hq]
    exact .at y v v' q' hv hvc
  | emptied s₁ => rw [hout] at hleaves; exact hleaves
  | fault => trivial

theorem replying_ok {answer : α → StoreReply} {P : Store t → Prop} {outcome : Outcome (Store t) α}
    (hleaves : outcome.Leaves P) (h : replying answer outcome = .ok (reply, s')) : P s' := by
  cases outcome with
  | done s₁ a => cases h; exact hleaves
  | emptied s₁ => cases h; exact hleaves
  | fault => cases h

/-- What a request can do to a store: add a variable at the root, change one variable at the
current level, change the queue only, enter a level or go back to one. -/
theorem Layered.perform_cases (h : s.Layered) {request : StoreRequest t}
    (hp : s.perform request = .ok (reply, s')) :
    (s.level = 0 ∧ s'.level = 0 ∧ (∃ v, s'.vars = s.vars ++ [v]) ∧ s'.Layered) ∨
      s.ChangedOne s' ∨ (∃ q, s' = { s with woken := q }) ∨
      (request = .pushLevel ∧ s' = s.pushLevel) ∨
      ∃ level, request = .backtrack level ∧ level ≤ s.level ∧ s' = s.restored level := by
  have added {x : VarId} {d : Domain t} {s₁ : Store t} (ha : s.addVariable d = .ok (x, s₁)) :
      s.level = 0 ∧ s₁.level = 0 ∧ (∃ v, s₁.vars = s.vars ++ [v]) ∧ s₁.Layered := by
    obtain ⟨hl, v, hv, -, rfl⟩ := addVariable_ok ha
    exact ⟨hl, hl, ⟨v, rfl⟩, h.added hl hv⟩
  cases request with
  | addRange lo hi =>
    obtain ⟨x, -, ha⟩ := adding_ok hp
    obtain ⟨-, d, -, hd⟩ := addRange_ok ha
    exact .inl (added hd)
  | addNamedRange lo hi name =>
    obtain ⟨x, -, ha⟩ := adding_ok hp
    obtain ⟨s₁, hr, rfl⟩ := addNamedRange_ok ha
    obtain ⟨-, d, -, hd⟩ := addRange_ok hr
    obtain ⟨hl, hl₁, hvars, h₁⟩ := added hd
    exact .inl ⟨hl, hl₁, hvars, h₁.trail_length, h₁.ordered, h₁.stamp_le, h₁.trail_exact⟩
  | addValues values =>
    obtain ⟨x, -, ha⟩ := adding_ok hp
    exact .inl (added ha)
  | addVariable d =>
    obtain ⟨x, -, ha⟩ := adding_ok hp
    exact .inl (added ha)
  | narrow x narrowing => exact .inr (.inl (replying_ok (h.narrow_changedOne x narrowing) hp))
  | subscribe x c trigger =>
    have hone := h.update_changedOne x fun v level => v.subscribe_changed level c trigger
    exact .inr (.inl (replying_ok hone hp))
  | unsubscribe x c =>
    have hone := h.update_changedOne x fun v level => v.unsubscribe_changed level c
    exact .inr (.inl (replying_ok hone hp))
  | activate x c =>
    have hone := h.update_changedOne x fun v level => v.activate_changed level c
    exact .inr (.inl (replying_ok hone hp))
  | deactivate x c =>
    have hone := h.update_changedOne x fun v level => v.deactivate_changed level c
    exact .inr (.inl (replying_ok hone hp))
  | deactivateAt x position =>
    have hone := h.update_changedOne x fun v level => v.deactivateAt_changed level position
    exact .inr (.inl (replying_ok hone hp))
  | pushLevel => cases hp; exact .inr (.inr (.inr (.inl ⟨rfl, rfl⟩)))
  | backtrack level =>
    simp only [perform] at hp
    split at hp
    · next s₁ hb =>
      cases hp
      obtain ⟨hle, rfl⟩ := (backtrack_ok_iff h).mp hb
      exact .inr (.inr (.inr (.inr ⟨level, rfl, hle, rfl⟩)))
    · cases hp
  | popWoken =>
    cases hp
    exact .inr (.inr (.inl (popWoken_eq s)))
  | forgetWoken => cases hp; exact .inr (.inr (.inl ⟨.empty, rfl⟩))

theorem Layered.perform (h : s.Layered) {request : StoreRequest t}
    (hp : s.perform request = .ok (reply, s')) : s'.Layered := by
  rcases h.perform_cases hp with hadd | hone | ⟨q, rfl⟩ | ⟨-, rfl⟩ | ⟨level, -, hle, rfl⟩
  · exact hadd.2.2.2
  · exact hone.layered h
  · exact h.withWoken q
  · exact h.pushLevel
  · exact h.restored hle

theorem Layered.perform_length (h : s.Layered) {request : StoreRequest t}
    (hp : s.perform request = .ok (reply, s')) : s.vars.length ≤ s'.vars.length := by
  rcases h.perform_cases hp with
    ⟨-, -, ⟨v, hvars⟩, -⟩ | hone | ⟨q, rfl⟩ | ⟨-, rfl⟩ | ⟨level, -, -, rfl⟩
  · simp [hvars]
  · obtain ⟨x, v, v', q, -, -⟩ := hone
    simp [Store.replaced]
  · exact Nat.le_refl _
  · exact Nat.le_refl _
  · simp [Store.restored]

theorem Layered.perform_above (h : s.Layered) {low : Nat} (hlow : low < s.level)
    {request : StoreRequest t} (habove : request.StaysAbove low)
    (hp : s.perform request = .ok (reply, s')) :
    low < s'.level ∧ s'.restored low = s.restored low := by
  rcases h.perform_cases hp with hadd | hone | ⟨q, rfl⟩ | ⟨-, rfl⟩ | ⟨level, rfl, hle, rfl⟩
  · omega
  · exact ⟨by rw [hone.level]; exact hlow, hone.restored h hlow⟩
  · exact ⟨hlow, rfl⟩
  · exact ⟨Nat.lt_succ_of_lt hlow, restored_pushLevel (by omega)⟩
  · exact ⟨habove, restored_restored (Nat.le_of_lt habove) hle⟩

theorem Reachable.layered (h : s.Reachable) : s.Layered := by
  obtain ⟨options, requests, replies, hrun⟩ := h
  exact performAll_keeps (fun _ _ s _ _ hs => hs.perform) (layered_empty options) hrun

/-- On the trail of a level is every variable with a version of that level, once, and no other
one. So going back, which visits the variables on the trail above a level, brings every variable
back to the level. -/
theorem trail_names_forks_once (hreach : s.Reachable) :
    (∀ (level : Nat) (x : VarId) (v : Variable t), 0 < level → level ≤ s.level →
      s.vars[x]? = some v → ∃ forked, s.trail[s.level - level]? = some forked ∧
        forked.count x = if level ∈ v.stamps then 1 else 0) ∧
      ∀ level ≤ s.level, ∃ s', s.backtrack level = .ok s' ∧
        s'.vars = s.vars.map fun v => v.backTo level := by
  have h := hreach.layered
  refine ⟨?_, fun level hle => ⟨_, h.backtrack_eq hle, rfl⟩⟩
  intro level x v hpos hle hv
  have hnodup : v.stamps.Nodup := (h.ordered v (List.mem_of_getElem? hv)).stamps_nodup
  refine ⟨s.forkedAt level, h.trail_getElem? hpos hle, ?_⟩
  rw [h.trail_exact level x hpos hle, stampsOf_eq hv, hnodup.count]

/-- A store on the second level, which was left and entered again before the second variable was
changed there. -/
def enteredAgain : Store .int32 where
  vars := [
    ⟨0, ⟨.intervals [⟨0, 8⟩], 1, .empty, .empty, true⟩,
      [⟨.intervals [⟨0, 10⟩], 0, .empty, .empty, false⟩]⟩,
    ⟨1, ⟨.sparse [2, 4, 8], 2, ⟨[], [], [4]⟩, .empty, true⟩,
      [⟨.sparse [2, 4, 8], 0, .empty, .empty, false⟩]⟩]
  level := 2
  trail := [[1], [0]]
  woken := .empty
  names := .empty
  options := .standard

theorem trail_names_forks_once_again :
    enteredAgain.Reachable ∧ 0 < 2 ∧ 2 ≤ enteredAgain.level ∧
      (∀ x v, enteredAgain.vars[x]? = some v → ∃ forked, enteredAgain.trail[0]? = some forked ∧
        forked.count x = if 2 ∈ v.stamps then 1 else 0) ∧
      ∃ s', enteredAgain.backtrack 1 = .ok s' ∧
        s'.vars = enteredAgain.vars.map fun v => v.backTo 1 := by
  have hreach : enteredAgain.Reachable :=
    ⟨.standard, [.addRange 0 10, .addValues [4, 2, 8], .pushLevel, .narrow 0 (.atMost 8),
      .pushLevel, .narrow 0 (.equalTo 5), .narrow 1 (.within 5 7), .backtrack 1, .pushLevel,
      .subscribe 1 4 .any], _, rfl⟩
  obtain ⟨hnamed, hback⟩ := trail_names_forks_once hreach
  exact ⟨hreach, by decide, by decide, fun x v hv => hnamed 2 x v (by decide) (by decide) hv,
    hback 1 (by decide)⟩

/-- Going back to a level undoes all that was done since the level was left: only the woken
constraints are forgotten. -/
theorem backtrack_undoes (hreach : s.Reachable) {requests : List (StoreRequest t)}
    (habove : ∀ request ∈ requests, request.StaysAbove s.level) {replies : List StoreReply}
    (hrun : s.pushLevel.performAll requests = .ok (replies, s')) :
    s'.backtrack s.level = .ok { s with woken := .empty } := by
  have h := hreach.layered
  have kept : s'.Layered ∧ s.level < s'.level ∧
      s'.restored s.level = s.pushLevel.restored s.level := by
    refine performAll_keeps (P := fun r => r.Layered ∧ s.level < r.level ∧
      r.restored s.level = s.pushLevel.restored s.level) ?_
      ⟨h.pushLevel, Nat.lt_succ_self _, rfl⟩ hrun
    rintro request hmem s₁ reply s₂ ⟨h₁, hlow, heq⟩ hp
    obtain ⟨hlow₂, heq₂⟩ := h₁.perform_above hlow (habove request hmem) hp
    exact ⟨h₁.perform hp, hlow₂, heq₂.trans heq⟩
  obtain ⟨h', hlow', heq⟩ := kept
  calc
    s'.backtrack s.level = .ok (s'.restored s.level) := h'.backtrack_eq (Nat.le_of_lt hlow')
    _ = .ok (s.pushLevel.restored s.level) := by rw [heq]
    _ = .ok (s.restored s.level) := by rw [restored_pushLevel (Nat.le_refl _)]
    _ = .ok { s with woken := .empty } := by rw [h.restored_self]

def firstLevel : Store .int32 where
  vars := [
    ⟨0, ⟨.intervals [⟨0, 8⟩], 1, ⟨[], [3], []⟩, .empty, true⟩,
      [⟨.intervals [⟨0, 10⟩], 0, ⟨[], [3], []⟩, .empty, false⟩]⟩,
    ⟨1, ⟨.sparse [2, 4, 8], 0, .empty, .empty, false⟩, []⟩]
  level := 1
  trail := [[0]]
  woken := WakeQueue.empty.enqueueAll [3]
  names := .empty
  options := .standard

def deeperRequests : List (StoreRequest .int32) :=
  [.narrow 0 (.atLeast 5), .subscribe 1 4 .any, .pushLevel, .activate 0 7,
    .narrow 0 (.outside 6 7), .narrow 1 (.equalTo 9), .pushLevel, .narrow 0 (.equalTo 5),
    .backtrack 3, .deactivateAt 0 0, .popWoken]

theorem backtrack_undoes_deeper :
    firstLevel.Reachable ∧ (∀ request ∈ deeperRequests, request.StaysAbove firstLevel.level) ∧
      ∃ replies s', firstLevel.pushLevel.performAll deeperRequests = .ok (replies, s') ∧
        s'.level = 3 ∧ s'.backtrack firstLevel.level = .ok { firstLevel with woken := .empty } := by
  have hreach : firstLevel.Reachable :=
    ⟨.standard, [.addRange 0 10, .addValues [4, 2, 8], .subscribe 0 3 .bound, .pushLevel,
      .narrow 0 (.atMost 8)], _, rfl⟩
  have habove : ∀ request ∈ deeperRequests, request.StaysAbove firstLevel.level := by
    simp [deeperRequests, StoreRequest.StaysAbove, firstLevel]
  exact ⟨hreach, habove, _, _, rfl, rfl, backtrack_undoes hreach habove rfl⟩

end Store
end FiniteDomains
