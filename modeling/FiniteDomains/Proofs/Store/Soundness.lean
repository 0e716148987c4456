import FiniteDomains.Proofs.Domain.Algebra
import FiniteDomains.Proofs.Propagator.Readings

/-! Stores stay sound. A request that names a variable, a domain, a position or a level that it may
name does not fault, unless it asks for a shift that is refused, and leaves a sound store. -/
namespace FiniteDomains
variable {t : ValueType}

theorem Representation.domain_ok [t.Lawful] (representation : Representation) {lo hi : Int}
    (hle : lo ≤ hi) (hlo : t.fits lo = true) (hhi : t.fits hi = true) :
    ∃ d : Domain t, representation.domain lo hi = .ok d ∧ d.Valid ∧
      ∀ v, v ∈ d ↔ lo ≤ v ∧ v ≤ hi := by
  cases representation with
  | intervals => exact Domain.ofRange_ok hle hlo hhi
  | sparse => exact Domain.ofRangeSparse_ok hle hlo hhi
  | sparseUpTo limit =>
    rw [domain]
    split
    · exact Domain.ofRangeSparse_ok hle hlo hhi
    · exact Domain.ofRange_ok hle hlo hhi

namespace StoreRequest

/-- What a request names has to be there: a variable, an active position, a level, or some values
to start with, at the root. What a narrowing to a domain keeps or moves needs room. -/
def Allowed (s : Store t) : StoreRequest t → Prop
  | .addRange lo hi | .addNamedRange lo hi _ =>
    s.level = 0 ∧ lo ≤ hi ∧ t.fits lo = true ∧ t.fits hi = true
  | .addValues values => s.level = 0 ∧ values ≠ [] ∧ ∀ v ∈ values, t.fits v = true
  | .addVariable d => s.level = 0 ∧ d.Valid ∧ d.isEmpty = false
  | .narrow x n =>
    x < s.vars.length ∧ n.Proper ∧ ∀ v, s.vars[x]? = some v → n.Room v.values
  | .subscribe x _ _ | .unsubscribe x _ | .activate x _ | .deactivate x _ => x < s.vars.length
  | .deactivateAt x position =>
    ∃ v, s.vars[x]? = some v ∧ position < v.current.search.activeCount
  | .backtrack level => level ≤ s.level
  | .pushLevel | .popWoken | .forgetWoken => True

/-- A narrowing to a domain that is shifted by an offset outside the universe. -/
def Refused (offset : Int) : StoreRequest t → Prop
  | .narrow _ n => n.Refused offset
  | _ => False

end StoreRequest

namespace Store
variable {α : Type} {s s' : Store t} {x : VarId} {v v' : Variable t} {d : Domain t}

/-- Every request is allowed in the store that the requests before it have left. -/
def AllAllowed (s : Store t) : List (StoreRequest t) → Prop
  | [] => True
  | request :: requests => request.Allowed s ∧
    match s.perform request with
    | .ok (_, s') => s'.AllAllowed requests
    | .error _ => True

/-- A well formed store in which every version has values of the version before it. -/
structure Sound (s : Store t) : Prop extends s.WellFormed where
  nested : ∀ v ∈ s.vars, v.Nested

theorem sound_empty (options : StoreOptions) : (empty options : Store t).Sound :=
  ⟨⟨layered_empty options, by simp [empty]⟩, by simp [empty]⟩

/-! ### The effects of requests -/

theorem Sound.withWoken (h : s.Sound) (q : WakeQueue) : ({ s with woken := q } : Store t).Sound :=
  ⟨⟨h.toLayered.withWoken q, h.filled⟩, h.nested⟩

theorem Sound.pushLevel (h : s.Sound) : s.pushLevel.Sound :=
  ⟨⟨h.toLayered.pushLevel, h.filled⟩, h.nested⟩

theorem Sound.restored (h : s.Sound) {level : Nat} (hl : level ≤ s.level) :
    (s.restored level).Sound := by
  refine ⟨⟨h.toLayered.restored hl, ?_⟩, ?_⟩
  · intro v hv w hw
    obtain ⟨u, hu, rfl⟩ := List.mem_map.mp hv
    exact h.filled u hu w ((u.backTo_versions level).subset hw)
  · intro v hv
    obtain ⟨u, hu, rfl⟩ := List.mem_map.mp hv
    exact (h.nested u hu).backTo level

theorem Sound.replaced (h : s.Sound) (hv : s.vars[x]? = some v) (hr : v.Refined s.level v') :
    (s.replaced x v v').Sound := by
  refine ⟨h.toWellFormed.replaced hv hr.changed hr.filled, ?_⟩
  intro u hu
  rcases List.mem_or_eq_of_mem_set hu with hu | rfl
  · exact h.nested u hu
  · exact hr.nested (h.nested v (List.mem_of_getElem? hv))

theorem Sound.update (h : s.Sound) (hv : s.vars[x]? = some v)
    (change : Variable t → Nat → Outcome (Variable t) α)
    (hchange : (change v s.level).Ends (fun v' _ => v.Refined s.level v') (v.Refined s.level)) :
    (s.update x change).Ends (fun s' _ => s'.Sound) Sound := by
  rw [h.toLayered.update_eq hv]
  cases hout : change v s.level with
  | done v' a => exact h.replaced hv (hchange.done hout)
  | emptied v' => exact h.replaced hv (hchange.emptied hout)
  | fault cause => exact absurd hout (hchange.ne_fault cause)

theorem Shrinks.sound (hs : s.Shrinks s') (h : s.Sound) : s'.Sound := by
  obtain ⟨x, v, d, hv, hd⟩ := hs
  exact (h.replaced hv (hd.refined (h.stamp hv))).withWoken _

theorem Shrunk.sound (hs : s.Shrunk s') (h : s.Sound) : s'.Sound := by
  induction hs with
  | refl => exact h
  | tail _ hstep ih => exact hstep.sound ih

theorem Sound.narrow [t.Lawful] (h : s.Sound) (hv : s.vars[x]? = some v) {n : Narrowing t}
    (hn : n.Proper) (hroom : n.Room v.values) :
    (s.narrow x n).Ends (fun s' _ => s'.Sound) Sound ∨
      ∃ offset, n.Refused offset ∧ s.narrow x n = .fault (.shiftOutside offset) := by
  have hresult := narrow_result h.toWellFormed hv hn hroom
  generalize s.narrow x n = outcome at hresult
  cases hresult with
  | emptied _ => exact .inl h
  | kept d _ _ => exact .inl h
  | changed d _ hpart => exact .inl ((Shrinks.at x v d hv hpart).sound h)
  | refused offset href => exact .inr ⟨offset, href, rfl⟩

theorem Sound.addVariable (h : s.Sound) (hl : s.level = 0) (hd : d.Valid)
    (hne : d.isEmpty = false) : ∃ x s', s.addVariable d = .ok (x, s') ∧ s'.Sound := by
  have hmake : Variable.make s.vars.length d =
      .ok ⟨s.vars.length, ⟨d, 0, .empty, .empty, false⟩, []⟩ := by
    simp [Variable.make, hne]
  have hadd : s.addVariable d = .ok (s.vars.length, { s with vars := s.vars ++
      [⟨s.vars.length, ⟨d, 0, .empty, .empty, false⟩, []⟩] }) := by
    simp only [Store.addVariable, if_pos hl, hmake]
  refine ⟨_, _, hadd, ⟨h.toLayered.added hl hmake, ?_⟩, ?_⟩
  · intro u hu w hw
    rcases List.mem_append.mp hu with hu | hu
    · exact h.filled u hu w hw
    · obtain rfl := List.mem_singleton.mp hu
      obtain rfl := List.mem_singleton.mp hw
      exact ⟨hd, hne⟩
  · intro u hu
    rcases List.mem_append.mp hu with hu | hu
    · exact h.nested u hu
    · obtain rfl := List.mem_singleton.mp hu
      exact List.pairwise_singleton _ _

theorem Sound.addRange [t.Lawful] (h : s.Sound) (hl : s.level = 0) {lo hi : Int} (hle : lo ≤ hi)
    (hlo : t.fits lo = true) (hhi : t.fits hi = true) :
    ∃ x s', s.addRange lo hi = .ok (x, s') ∧ s'.Sound := by
  obtain ⟨d, hd, hvalid, hmem⟩ := s.options.representation.domain_ok hle hlo hhi
  have hne : d.isEmpty = false := by
    rw [← Bool.not_eq_true, Domain.isEmpty_iff hvalid.consistent]
    exact fun hnone => hnone lo ((hmem lo).mpr ⟨Int.le_refl _, hle⟩)
  obtain ⟨x, s', hadd, hsound⟩ := h.addVariable hl hvalid hne
  exact ⟨x, s', by simp only [Store.addRange, if_neg (Int.not_lt.mpr hle), hd, hadd], hsound⟩

/-! ### Requests -/

theorem replying_ends {outcome : Outcome (Store t) α} {P : Store t → Prop}
    (h : outcome.Ends (fun s' _ => P s') P) (answer : α → StoreReply) :
    ∃ reply s', replying answer outcome = .ok (reply, s') ∧ P s' := by
  cases outcome with
  | done s' a => exact ⟨answer a, s', rfl, h⟩
  | emptied s' => exact ⟨.emptied, s', rfl, h⟩
  | fault cause => exact h.elim

/-- An allowed request succeeds and keeps a store sound, or asks for a shift that is refused. -/
theorem Sound.perform [t.Lawful] (h : s.Sound) {request : StoreRequest t}
    (hallowed : request.Allowed s) :
    (∃ reply s', s.perform request = .ok (reply, s') ∧ s'.Sound) ∨
      ∃ offset, request.Refused offset ∧ s.perform request = .error (.shiftOutside offset) := by
  cases request with
  | addRange lo hi =>
    obtain ⟨hl, hle, hlo, hhi⟩ := hallowed
    obtain ⟨x, s', hadd, hsound⟩ := h.addRange hl hle hlo hhi
    exact .inl ⟨.added x, s', by simp only [Store.perform, hadd, adding], hsound⟩
  | addNamedRange lo hi name =>
    obtain ⟨hl, hle, hlo, hhi⟩ := hallowed
    obtain ⟨x, s', hadd, hsound⟩ := h.addRange hl hle hlo hhi
    refine .inl ⟨.added x, { s' with names := s'.names.add x name },
      by simp only [Store.perform, addNamedRange, hadd, adding], ?_⟩
    exact ⟨⟨⟨hsound.trail_length, hsound.ordered, hsound.stamp_le, hsound.trail_exact⟩,
      hsound.filled⟩, hsound.nested⟩
  | addValues values =>
    obtain ⟨hl, hsome, hfit⟩ := hallowed
    have hvalid : (Domain.ofValues values : Domain t).Valid := Domain.ofValues_valid hfit
    have hne : (Domain.ofValues values : Domain t).isEmpty = false := by
      rw [← Bool.not_eq_true, Domain.isEmpty_iff hvalid.consistent]
      intro hnone
      obtain ⟨v, hv⟩ := List.exists_mem_of_ne_nil values hsome
      exact hnone v (Domain.mem_ofValues.mpr hv)
    obtain ⟨x, s', hadd, hsound⟩ := h.addVariable hl hvalid hne
    exact .inl ⟨.added x, s', by simp only [Store.perform, Store.addValues, hadd, adding], hsound⟩
  | addVariable d =>
    obtain ⟨hl, hvalid, hne⟩ := hallowed
    obtain ⟨x, s', hadd, hsound⟩ := h.addVariable hl hvalid hne
    exact .inl ⟨.added x, s', by simp only [Store.perform, hadd, adding], hsound⟩
  | narrow x n =>
    obtain ⟨hx, hn, hroom⟩ := hallowed
    have hv := List.getElem?_eq_getElem hx
    rcases h.narrow hv hn (hroom _ hv) with hends | ⟨offset, href, hout⟩
    · exact .inl (replying_ends hends .changed)
    · exact .inr ⟨offset, href, by simp only [Store.perform, hout, replying]⟩
  | subscribe x c trigger =>
    have hv := List.getElem?_eq_getElem hallowed
    have hends := Variable.subscribe_refined (h.current hv) (h.stamp hv) c trigger
    exact .inl (replying_ends (h.update hv (fun v level => v.subscribe level c trigger) hends) _)
  | unsubscribe x c =>
    have hv := List.getElem?_eq_getElem hallowed
    have hends := Variable.unsubscribe_refined (h.current hv) (h.stamp hv) c
    exact .inl (replying_ends (h.update hv (fun v level => v.unsubscribe level c) hends) _)
  | activate x c =>
    have hv := List.getElem?_eq_getElem hallowed
    have hends := Variable.activate_refined (h.current hv) (h.stamp hv) c
    exact .inl (replying_ends (h.update hv (fun v level => v.activate level c) hends) _)
  | deactivate x c =>
    have hv := List.getElem?_eq_getElem hallowed
    have hends := Variable.deactivate_refined (h.current hv) (h.stamp hv) c
    exact .inl (replying_ends (h.update hv (fun v level => v.deactivate level c) hends) _)
  | deactivateAt x position =>
    obtain ⟨v, hv, hp⟩ := hallowed
    have hends := Variable.deactivateAt_refined (h.current hv) (h.stamp hv) hp
    exact .inl (replying_ends (h.update hv (fun v level => v.deactivateAt level position) hends) _)
  | pushLevel => exact .inl ⟨_, _, rfl, h.pushLevel⟩
  | backtrack level =>
    have hback := h.toLayered.backtrack_eq hallowed
    exact .inl ⟨.finished, _, by simp only [Store.perform, hback], h.restored hallowed⟩
  | popWoken =>
    obtain ⟨q, hq⟩ := s.popWoken_eq
    exact .inl ⟨_, _, rfl, hq ▸ h.withWoken q⟩
  | forgetWoken => exact .inl ⟨_, _, rfl, h.withWoken .empty⟩

/-! ### Runs -/

theorem Sound.performAll [t.Lawful] (h : s.Sound) {requests : List (StoreRequest t)}
    (hallowed : s.AllAllowed requests) :
    (∃ replies s', s.performAll requests = .ok (replies, s') ∧ s'.Sound) ∨
      ∃ offset, (∃ request ∈ requests, request.Refused offset) ∧
        s.performAll requests = .error (.shiftOutside offset) := by
  induction requests generalizing s with
  | nil => exact .inl ⟨[], s, rfl, h⟩
  | cons request requests ih =>
    obtain ⟨hfirst, hrest⟩ := hallowed
    rcases h.perform hfirst with ⟨reply, s₁, hp, h₁⟩ | ⟨offset, href, hp⟩
    · simp only [hp] at hrest
      rcases ih h₁ hrest with ⟨replies, s', hrun, h'⟩ | ⟨offset, ⟨r, hr, href⟩, hrun⟩
      · exact .inl ⟨reply :: replies, s', by simp [Store.performAll, hp, hrun, bind, Except.bind,
          pure, Except.pure], h'⟩
      · exact .inr ⟨offset, ⟨r, List.mem_cons_of_mem _ hr, href⟩,
          by simp [Store.performAll, hp, hrun, bind, Except.bind]⟩
    · exact .inr ⟨offset, ⟨request, List.mem_cons_self, href⟩,
        by simp [Store.performAll, hp, bind, Except.bind]⟩

/-- A store that allowed requests make of a new one. -/
def Attained (s : Store t) : Prop :=
  ∃ options requests replies, (empty options).AllAllowed requests ∧
    (empty options).performAll requests = .ok (replies, s)

theorem Attained.sound [t.Lawful] (h : s.Attained) : s.Sound := by
  obtain ⟨options, requests, replies, hallowed, hrun⟩ := h
  rcases (sound_empty options).performAll hallowed with ⟨_, s', hrun', hsound⟩ | ⟨_, -, hfault⟩
  · obtain rfl : s = s' := congrArg Prod.snd (Except.ok.inj (hrun.symm.trans hrun'))
    exact hsound
  · rw [hrun] at hfault
    cases hfault

/-- Allowed requests to a new store come to an end without a fault and leave a sound store, in which
all bounds can be read. Only a shift by an offset outside the universe is refused. -/
theorem allowed_runs_stay_sound [t.Lawful] (options : StoreOptions)
    {requests : List (StoreRequest t)} (hallowed : (empty options).AllAllowed requests) :
    (∃ replies s, (empty options).performAll requests = .ok (replies, s) ∧ s.Sound ∧
      ∀ x < s.vars.length, ∃ r : Interval, s.lowerBound x = .ok r.lo ∧ s.upperBound x = .ok r.hi ∧
        s.bounds x = .ok r) ∨
      ∃ offset, (∃ request ∈ requests, request.Refused offset) ∧
        (empty options).performAll requests = .error (.shiftOutside offset) := by
  rcases (sound_empty options).performAll hallowed with ⟨replies, s, hrun, h⟩ | hrefused
  · refine .inl ⟨replies, s, hrun, h, fun x hx => ?_⟩
    obtain ⟨r, hr⟩ := h.boundedBy (List.getElem?_eq_getElem hx)
    exact ⟨r, hr.lower, hr.upper, hr.bounds⟩
  · exact .inr hrefused

def soundRequests : List (StoreRequest .int32) :=
  [.addRange 0 10, .addValues [4, 2, 8], .pushLevel, .narrow 0 (.atMost 8), .activate 0 7,
    .narrow 1 (.memberOf (.intervals [⟨3, 9⟩])), .narrow 1 (.equalTo 5), .deactivateAt 0 0,
    .backtrack 0]

theorem soundRequests_stay_sound :
    (empty ⟨.sparseUpTo 20, 8⟩).AllAllowed soundRequests ∧
      ∃ replies s, (empty ⟨.sparseUpTo 20, 8⟩).performAll soundRequests = .ok (replies, s) ∧
        s.Sound ∧ ∀ x < 2, ∃ r : Interval, s.lowerBound x = .ok r.lo ∧
          s.upperBound x = .ok r.hi ∧ s.bounds x = .ok r := by
  have hfits (v : Int) (hlo : 3 ≤ v) (hhi : v ≤ 9) : ValueType.int32.fits v = true :=
    ValueType.Lawful.fits_near v (by simp only [ValueType.int32, ValueType.overflowing32]; omega)
      (by simp only [ValueType.int32, ValueType.overflowing32]; omega)
  have hproper : (.memberOf (.intervals [⟨3, 9⟩]) : Narrowing .int32).Proper := by
    refine ⟨⟨by decide, by simp, trivial⟩, ?_⟩
    simpa using hfits
  have hallowed : (empty ⟨.sparseUpTo 20, 8⟩).AllAllowed soundRequests :=
    And.intro ⟨rfl, by decide, rfl, rfl⟩ <| And.intro ⟨rfl, by decide, by decide⟩ <|
    And.intro trivial <| And.intro ⟨by decide, trivial, fun _ _ => trivial⟩ <|
    And.intro (by decide : 0 < 2) <|
    And.intro ⟨by decide, hproper, fun _ hv => by cases hv; exact nofun⟩ <|
    And.intro ⟨by decide, trivial, fun _ _ => trivial⟩ <|
    And.intro ⟨_, rfl, by decide⟩ <| And.intro (by decide : 0 ≤ 1) trivial
  refine ⟨hallowed, ?_⟩
  rcases allowed_runs_stay_sound ⟨.sparseUpTo 20, 8⟩ hallowed with
    ⟨replies, s, hrun, hsound, hbounds⟩ | ⟨offset, ⟨request, hmem, href⟩, hfault⟩
  · refine ⟨replies, s, hrun, hsound, fun x hx => hbounds x ?_⟩
    obtain rfl : s = _ := (Prod.ext_iff.mp (Except.ok.inj (hrun.symm.trans rfl))).2
    exact hx
  · simp only [soundRequests, List.mem_cons, List.not_mem_nil, or_false] at hmem
    rcases hmem with rfl | rfl | rfl | rfl | rfl | rfl | rfl | rfl | rfl <;> exact href.elim

end Store
end FiniteDomains
