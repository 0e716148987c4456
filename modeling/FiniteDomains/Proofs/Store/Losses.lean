import FiniteDomains.Proofs.Store.Backtracking
import FiniteDomains.Proofs.Store.Soundness
import FiniteDomains.Proofs.Variable.Losses

/-! What variables have lost since a level was entered. A run to a level above the root has entered
it a last time and stayed above the level below since then. So the versions that are current there
are those from which the level was entered, however often it had been entered and left before. -/
namespace FiniteDomains.Store
variable {t : ValueType} {s s' entry : Store t} {requests : List (StoreRequest t)}
variable {replies : List StoreReply} {low : Nat}

theorem performAll_cons_ok {s₁ : Store t} {request : StoreRequest t} {reply : StoreReply}
    (hp : s.perform request = .ok (reply, s₁)) (hrun : s₁.performAll requests = .ok (replies, s')) :
    s.performAll (request :: requests) = .ok (reply :: replies, s') := by
  simp only [performAll, hp, hrun, bind, Except.bind, pure, Except.pure]

/-- A run of requests last enters the level above that of `entry` from there. -/
def LastEnters (s : Store t) (requests : List (StoreRequest t)) (entry s' : Store t) : Prop :=
  ∃ before after replies replies', requests = before ++ .pushLevel :: after ∧
    s.performAll before = .ok (replies, entry) ∧
    entry.pushLevel.performAll after = .ok (replies', s') ∧
    ∀ request ∈ after, request.StaysAbove entry.level

theorem LastEnters.cons {s₁ : Store t} {request : StoreRequest t} {reply : StoreReply}
    (hp : s.perform request = .ok (reply, s₁)) (h : s₁.LastEnters requests entry s') :
    s.LastEnters (request :: requests) entry s' := by
  obtain ⟨before, after, replies, replies', rfl, hbefore, hafter, habove⟩ := h
  exact ⟨request :: before, after, reply :: replies, replies', rfl,
    performAll_cons_ok hp hbefore, hafter, habove⟩

theorem Layered.perform_stays (h : s.Layered) {request : StoreRequest t} {reply : StoreReply}
    (hp : s.perform request = .ok (reply, s')) (hlow : low < s'.level) :
    request.StaysAbove low := by
  cases request with
  | backtrack level =>
    simp only [Store.perform] at hp
    split at hp
    · next s₁ hb =>
      cases hp
      obtain ⟨-, rfl⟩ := (backtrack_ok_iff h).mp hb
      exact hlow
    · cases hp
  | _ => trivial

theorem Layered.perform_enters (h : s.Layered) {request : StoreRequest t} {reply : StoreReply}
    (hp : s.perform request = .ok (reply, s')) (hlow : low < s'.level) :
    low < s.level ∨ request = .pushLevel ∧ s' = s.pushLevel ∧ s.level = low := by
  rcases h.perform_cases hp with hadd | hone | ⟨q, rfl⟩ | ⟨hpush, rfl⟩ | ⟨level, -, hle, rfl⟩
  · omega
  · exact .inl (hone.level ▸ hlow)
  · exact .inl hlow
  · rcases Nat.lt_succ_iff_lt_or_eq.mp hlow with hlt | rfl
    · exact .inl hlt
    · exact .inr ⟨hpush, rfl, rfl⟩
  · exact .inl (Nat.lt_of_lt_of_le hlow hle)

/-- A run that ends above a level has been above it all the time, or enters the next level a last
time. -/
theorem Layered.exists_entry (h : s.Layered) (hrun : s.performAll requests = .ok (replies, s'))
    (hlow : low < s'.level) :
    (low < s.level ∧ ∀ request ∈ requests, request.StaysAbove low) ∨
      ∃ entry, s.LastEnters requests entry s' ∧ entry.level = low := by
  induction requests generalizing s replies with
  | nil =>
    cases hrun
    exact .inl ⟨hlow, nofun⟩
  | cons request requests ih =>
    obtain ⟨reply, s₁, rest, hp, hrest, -⟩ := performAll_cons hrun
    rcases ih (h.perform hp) hrest with ⟨hlow₁, habove⟩ | ⟨entry, hentry, hlevel⟩
    · rcases h.perform_enters hp hlow₁ with hlt | ⟨rfl, rfl, rfl⟩
      · exact .inl ⟨hlt, List.forall_mem_cons.mpr ⟨h.perform_stays hp hlow₁, habove⟩⟩
      · exact .inr ⟨s, ⟨[], requests, [], rest, rfl, rfl, hrest, habove⟩, rfl⟩
    · exact .inr ⟨entry, hentry.cons hp, hlevel⟩

theorem Layered.performAll_above (h : s.Layered) (hlow : low < s.level)
    (habove : ∀ request ∈ requests, request.StaysAbove low)
    (hrun : s.performAll requests = .ok (replies, s')) :
    low < s'.level ∧ s'.restored low = s.restored low := by
  induction requests generalizing s replies with
  | nil =>
    cases hrun
    exact ⟨hlow, rfl⟩
  | cons request requests ih =>
    obtain ⟨hfirst, habove⟩ := List.forall_mem_cons.mp habove
    obtain ⟨reply, s₁, rest, hp, hrest, -⟩ := performAll_cons hrun
    obtain ⟨hlow₁, heq₁⟩ := h.perform_above hlow hfirst hp
    obtain ⟨hlow', heq⟩ := ih (h.perform hp) hlow₁ habove hrest
    exact ⟨hlow', heq.trans heq₁⟩

theorem LastEnters.vars_eq (h : s.LastEnters requests entry s') (hs : s.Layered) :
    s'.vars.map (fun v => v.backTo entry.level) = entry.vars := by
  obtain ⟨before, after, replies, replies', -, hbefore, hafter, habove⟩ := h
  have hentry : entry.Layered :=
    performAll_keeps (fun _ _ s _ _ hs => hs.perform) hs hbefore
  have hkept := (hentry.pushLevel.performAll_above (Nat.lt_succ_self _) habove hafter).2
  rw [restored_pushLevel (Nat.le_refl _), hentry.restored_self] at hkept
  exact congrArg vars hkept

/-- Where a run has ended above the root it has entered that level a last time. What each variable
has lost since then is what it had and has no more; and whatever it had at the root it has, or has
lost once. -/
theorem lost_since_entry [t.Lawful] {options : StoreOptions}
    (hallowed : (empty options).AllAllowed requests)
    (hrun : (empty options).performAll requests = .ok (replies, s)) :
    (0 < s.level → ∃ entry, (empty options).LastEnters requests entry s ∧
      entry.level + 1 = s.level) ∧
      (∀ entry, (empty options).LastEnters requests entry s → entry.level + 1 = s.level →
        ∀ (x : VarId) (v : Variable t), s.vars[x]? = some v → ∃ v₀, entry.vars[x]? = some v₀ ∧
          ∀ w, w ∈ v.lostSince s.level ↔ w ∈ v₀.values ∧ w ∉ v.values) ∧
      ∀ v ∈ s.vars, v.root.values.MadeUp (v.values :: v.losses) := by
  have hsound : s.Sound := Attained.sound ⟨options, requests, replies, hallowed, hrun⟩
  refine ⟨fun hpos => ?_, fun entry hentry hlevel x v hv => ?_,
    fun v hv => Variable.madeUp_losses (hsound.filled v hv) (hsound.nested v hv)⟩
  · have hlow : s.level - 1 < s.level := by omega
    rcases (layered_empty options).exists_entry hrun hlow with ⟨hroot, -⟩ | ⟨entry, hentry, hlast⟩
    · exact absurd hroot (Nat.not_lt_zero _)
    · exact ⟨entry, hentry, by omega⟩
  · have hvar : entry.vars[x]? = some (v.backTo entry.level) := by
      rw [← hentry.vars_eq (layered_empty options), List.getElem?_map, hv, Option.map_some]
    have hmem := List.mem_of_getElem? hv
    have hstamp : v.stamp ≤ entry.level + 1 := hlevel ▸ hsound.stamp_le v hmem
    refine ⟨_, hvar, fun w => ?_⟩
    rw [← hlevel]
    exact Variable.mem_lostSince (hsound.ordered v hmem) (hsound.filled v hmem) hstamp

/-- The second level is entered, left for the first one and entered again; there a variable starts a
version by waking a constraint and loses a value afterwards. -/
def reenteringRequests : List (StoreRequest .int32) :=
  [.addRange 0 10, .addValues [4, 2, 8], .pushLevel, .narrow 0 (.atMost 8), .pushLevel,
    .narrow 0 (.equalTo 5), .narrow 1 (.within 5 7), .backtrack 1, .pushLevel, .subscribe 1 4 .any,
    .narrow 1 (.outside 3 5)]

theorem lost_since_entry_again :
    (empty .standard).AllAllowed reenteringRequests ∧
      ∃ replies s, (empty .standard).performAll reenteringRequests = .ok (replies, s) ∧
        0 < s.level ∧ (∃ entry, (empty .standard).LastEnters reenteringRequests entry s ∧
          entry.level + 1 = s.level ∧ ∃ v v₀, s.vars[1]? = some v ∧ entry.vars[1]? = some v₀ ∧
            v.lostSince s.level = .sparse [4] ∧
            ∀ w, w ∈ v.lostSince s.level ↔ w ∈ v₀.values ∧ w ∉ v.values) ∧
        ∀ v ∈ s.vars, v.root.values.MadeUp (v.values :: v.losses) := by
  have hallowed : (empty .standard).AllAllowed reenteringRequests :=
    And.intro ⟨rfl, by decide, rfl, rfl⟩ <| And.intro ⟨rfl, by decide, by decide⟩ <|
    And.intro trivial <| And.intro ⟨by decide, trivial, fun _ _ => trivial⟩ <| And.intro trivial <|
    And.intro ⟨by decide, trivial, fun _ _ => trivial⟩ <|
    And.intro ⟨by decide, trivial, fun _ _ => trivial⟩ <|
    And.intro (by decide : 1 ≤ 2) <| And.intro trivial <| And.intro (by decide : 1 < 2) <|
    And.intro ⟨by decide, trivial, fun _ _ => trivial⟩ trivial
  obtain ⟨hentered, hlost, hparts⟩ := lost_since_entry hallowed rfl
  obtain ⟨entry, hentry, hlevel⟩ := hentered (by decide)
  obtain ⟨v₀, hv₀, hmem⟩ := hlost entry hentry hlevel 1 _ rfl
  exact ⟨hallowed, _, _, rfl, by decide, ⟨entry, hentry, hlevel, _, v₀, rfl, hv₀, by decide, hmem⟩,
    hparts⟩

end FiniteDomains.Store
