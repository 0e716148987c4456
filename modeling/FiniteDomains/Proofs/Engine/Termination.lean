import FiniteDomains.Proofs.Engine.Sessions
import FiniteDomains.Proofs.Store.Soundness

/-! Propagation ends on every engine that can be come to. The loop makes progress with every turn:
some domain loses values, or else no domain does and the queue loses its first constraint. -/
namespace FiniteDomains
variable {t : ValueType}

namespace Store
variable {s s' : Store t} {c : ConstraintId}

/-- Some domain has lost values and none has gained any. -/
structure Loses (s s' : Store t) : Prop extends s.Tighter s' where
  lost : ∃ (x : VarId) (v v' : Variable t), s.vars[x]? = some v ∧ s'.vars[x]? = some v' ∧
    v'.values.toFinset ⊂ v.values.toFinset

theorem Shrunk.eq_or_loses (hs : s.Shrunk s') (h : s.WellFormed) : s' = s ∨ s.Loses s' := by
  rcases Relation.ReflTransGen.cases_head hs with heq | ⟨s₁, hfirst, hrest⟩
  · exact .inl heq.symm
  · refine .inr ⟨hs.tighter, ?_⟩
    obtain ⟨x, v, d, hv, hd⟩ := hfirst
    have hv₁ : (s.narrowed x v d).vars[x]? = some (v.setValues s.level d) := by
      rw [narrowed_getElem? hv, if_pos rfl]
    obtain ⟨v', hv', -, -, hsub⟩ := (Shrunk.tighter hrest).var x _ hv₁
    rw [Variable.setValues_values] at hsub
    have hle : v'.values.toFinset ⊆ d.toFinset := fun w hw =>
      Domain.mem_toFinset.mpr (hsub w (Domain.mem_toFinset.mp hw))
    exact ⟨x, v, v', hv, hv', hle.trans_ssubset (hd.toFinset_ssubset (h.current hv).valid)⟩

theorem Sound.subscribeAll {subscriptions : List (VarId × Trigger)} (h : s.Sound)
    (hout : Propagator.subscribeAll c subscriptions s = .done s' ()) : s'.Sound := by
  induction subscriptions generalizing s with
  | nil =>
    cases hout
    exact h
  | cons subscription subscriptions ih =>
    obtain ⟨s₁, added, hsub, hrest⟩ := Action.Tightens.bind_done hout
    refine ih ?_ hrest
    cases hv : s.vars[subscription.1]? with
    | none =>
      rw [Store.subscribe, update_missing hv] at hsub
      cases hsub
    | some v =>
      have hends := Variable.subscribe_refined (h.current hv) (h.stamp hv) c subscription.2
      exact (h.update hv (fun v level => v.subscribe level c subscription.2) hends).done hsub

theorem Has.of_length {xs : List VarId} (hx : s.Has xs) (hle : s.vars.length ≤ s'.vars.length) :
    s'.Has xs := by
  intro x hmem
  obtain ⟨v, hv⟩ := hx x hmem
  obtain ⟨hlt, -⟩ := List.getElem?_eq_some_iff.mp hv
  exact ⟨_, List.getElem?_eq_getElem (Nat.lt_of_lt_of_le hlt hle)⟩

end Store

namespace Engine
variable {e e' : Engine t} {p : Propagator t} {c : ConstraintId}

/-- An engine that can be come to from an empty one. Its store can be asked for all that is allowed,
also to register ids that no propagator has. -/
inductive Attained : Engine t → Prop
  | empty (options : StoreOptions) (checked : Bool) : Attained (empty options checked)
  | request (e : Engine t) (request : StoreRequest t) (reply : StoreReply) (s : Store t) :
      Attained e → request.Allowed e.store → e.store.perform request = .ok (reply, s) →
      Attained (e.withStore s)
  | post (e e' : Engine t) (p : Propagator t) (c : ConstraintId) :
      Attained e → p.Builtin → e.post p = .done e' c → Attained e'
  | postFails (e e' : Engine t) (p : Propagator t) :
      Attained e → p.Builtin → e.post p = .emptied e' → Attained e'
  | propagate (e e' : Engine t) : Attained e → e.propagate = .done e' () → Attained e'
  | propagateFails (e e' : Engine t) : Attained e → e.propagate = .emptied e' → Attained e'

def withQueue (e : Engine t) (q : WakeQueue) : Engine t := e.withStore { e.store with woken := q }

/-- A steady engine with a sound store. -/
structure Sound (e : Engine t) : Prop extends e.Steady where
  nested : ∀ v ∈ e.store.vars, v.Nested

theorem Sound.store (h : e.Sound) : e.store.Sound := ⟨h.wellFormed, h.nested⟩

theorem Sound.withQueue (h : e.Sound) (q : WakeQueue) : (e.withQueue q).Sound :=
  ⟨⟨(h.store.withWoken q).toWellFormed, h.builtin, h.has⟩, h.nested⟩

theorem Sound.shrunk {s : Store t} (h : e.Sound) (hs : e.store.Shrunk s)
    (runs : List ConstraintId) : ({ e with store := s, runs := runs } : Engine t).Sound :=
  ⟨h.toSteady.shrunk hs runs, (hs.sound h.store).nested⟩

variable [t.Lawful]

theorem Sound.run_leaves (h : e.Sound) (hp : p ∈ e.propagators) (c : ConstraintId) :
    (e.run c p).Leaves fun e' => e'.Sound ∧ e'.propagators = e.propagators := by
  have hends := (h.builtin p hp).ends_unless h.wellFormed (h.has p hp)
  simp only [run]
  cases hout : p.propagate e.store with
  | done s r => exact ⟨h.shrunk (hends.done hout) _, rfl⟩
  | emptied s => exact ⟨h.shrunk (hends.emptied hout) _, rfl⟩
  | fault => trivial

theorem Sound.runWoken_leaves (h : e.Sound) (c : ConstraintId) : (e.runWoken c).Leaves Sound := by
  simp only [runWoken]
  split
  · trivial
  · next p hp =>
    have hleaves := h.run_leaves (List.mem_of_getElem? hp) c
    cases hout : e.run c p with
    | done e' r =>
      rw [hout] at hleaves
      exact hleaves.1
    | emptied e' =>
      rw [hout] at hleaves
      exact hleaves.1.withQueue .empty
    | fault => trivial

theorem Sound.drain_leaves (h : e.Sound) (fuel : Nat) : (drain fuel e).Leaves Sound := by
  induction fuel generalizing e with
  | zero => trivial
  | succ fuel ih =>
    simp only [drain, Store.popWoken, WakeQueue.pop?]
    cases e.store.woken.waiting with
    | nil => exact h
    | cons c rest =>
      have hrest := (h.withQueue e.store.woken.dropFirst).runWoken_leaves c
      exact hrest.andThen fun e' _ h' => ih h'

theorem Sound.recheck_leaves {ps : List (Propagator t)} (h : e.Sound) (settled : Bool)
    (c : ConstraintId) (hps : ∀ p ∈ ps, p ∈ e.propagators) :
    (recheck settled e c ps).Leaves Sound := by
  induction ps generalizing e settled c with
  | nil =>
    simp only [recheck]
    split
    · exact h
    · trivial
  | cons p ps ih =>
    refine (h.run_leaves (hps p List.mem_cons_self) c).resume fun e' _ hrun => ?_
    obtain ⟨h', hsame⟩ := hrun
    refine ih (h'.withQueue .empty) _ _ fun q hq => ?_
    exact hsame ▸ hps q (List.mem_cons_of_mem _ hq)

theorem Sound.propagate_leaves (h : e.Sound) : e.propagate.Leaves Sound := by
  refine (h.drain_leaves e.runBound).andThen fun e' _ h' => ?_
  split
  · exact h'.recheck_leaves true 0 fun p hp => hp
  · exact h'

theorem Sound.post_leaves (h : e.Sound) (hp : p.Builtin) : (e.post p).Leaves Sound := by
  by_cases hroot : e.store.level = 0
  · by_cases hx : e.store.Has p.vars
    · obtain ⟨s, hout, henroll, -⟩ :=
        Store.subscribeAll_enrolled h.wellFormed hx e.propagators.length
      have hposted : (e.posted p s).Sound :=
        ⟨h.toSteady.posted hp hx henroll, (h.store.subscribeAll hout).nested⟩
      simp only [post, hroot, hp.subscribe_eq, hout, Outcome.resume]
      refine (hposted.runWoken_leaves _).andThen fun e₁ _ h₁ => ?_
      exact h₁.propagate_leaves.andThen fun e₂ _ h₂ => h₂
    · obtain ⟨cause, hfault⟩ := Store.subscribeAll_fault (c := e.propagators.length)
        h.wellFormed hx
      simp only [post, hroot, hp.subscribe_eq, hfault, Outcome.resume]
      trivial
  · simp only [post, hroot, ne_eq, not_false_eq_true, if_true]
    trivial

theorem Sound.request {request : StoreRequest t} {reply : StoreReply} {s : Store t} (h : e.Sound)
    (hallowed : request.Allowed e.store) (hp : e.store.perform request = .ok (reply, s)) :
    (e.withStore s).Sound := by
  rcases h.store.perform hallowed with ⟨reply', s', hp', hsound⟩ | ⟨offset, -, hfault⟩
  · obtain rfl : s = s' := congrArg Prod.snd (Except.ok.inj (hp.symm.trans hp'))
    have hle := h.wellFormed.perform_length hp
    exact ⟨⟨hsound.toWellFormed, h.builtin, fun p hmem => (h.has p hmem).of_length hle⟩,
      hsound.nested⟩
  · rw [hp] at hfault
    cases hfault

theorem Attained.sound (h : e.Attained) : e.Sound := by
  induction h with
  | empty options checked =>
    exact ⟨⟨(Store.sound_empty options).toWellFormed, by simp [Engine.empty],
      by simp [Engine.empty]⟩, (Store.sound_empty options).nested⟩
  | request e request reply s _ hallowed hp ih => exact ih.request hallowed hp
  | post e e' p c _ hp hout ih =>
    have hleaves := ih.post_leaves hp
    rwa [hout] at hleaves
  | postFails e e' p _ hp hout ih =>
    have hleaves := ih.post_leaves hp
    rwa [hout] at hleaves
  | propagate e e' _ hout ih =>
    have hleaves := ih.propagate_leaves
    rwa [hout] at hleaves
  | propagateFails e e' _ hout ih =>
    have hleaves := ih.propagate_leaves
    rwa [hout] at hleaves

/-! ### The loop -/

/-- A turn of the loop that does not fail takes values from some domain, or it leaves all domains
and takes the first constraint from the queue for good. -/
theorem Iterates.progress (hi : e.Iterates e') (h : e.Steady) :
    e.store.Loses e'.store ∨ e'.store.domains = e.store.domains ∧
      ∃ c, e.store.woken.waiting = c :: e'.store.woken.waiting := by
  obtain ⟨c, rest, hwait, hs⟩ := hi.shrunk h
  rcases hs.eq_or_loses h.popped.wellFormed with heq | hloses
  · exact .inr ⟨by rw [heq]; rfl, c, by rw [heq, popped_waiting hwait]; exact hwait⟩
  · exact .inl ⟨⟨hloses.level, hloses.length, hloses.var⟩, hloses.lost⟩

theorem Runs.queued (hr : e.Runs e') (h : e.Steady) :
    e'.store.registered = e.store.registered ∧
      ∀ c ∈ e'.store.woken.waiting, c ∈ e.store.woken.waiting ∨ c ∈ e.store.registered := by
  induction hr with
  | refl => exact ⟨rfl, fun c hc => .inl hc⟩
  | tail hrun hi ih =>
    obtain ⟨a, rest, hwait, hs⟩ := hi.shrunk (Runs.steady hrun h)
    refine ⟨hs.tighter.registered.trans ih.1, fun c hc => ?_⟩
    rcases hs.queued hc with hc | hc
    · rw [popped_waiting hwait] at hc
      exact ih.2 c (hwait ▸ List.mem_cons_of_mem a hc)
    · exact .inr (ih.1 ▸ hc)

/-- Every turn takes something from what is left to do. -/
theorem Steady.turns_le {size : Nat} {f : Nat → Engine t} {k : Nat} (h : (f 0).Steady)
    (hq : (f 0).store.QueueWithin size) (hf : ∀ i < k, (f i).Iterates (f (i + 1))) :
    (f k).Steady ∧ (f k).store.QueueWithin size ∧
      (f k).remaining size + k ≤ (f 0).remaining size := by
  induction k with
  | zero => exact ⟨h, hq, Nat.le_refl _⟩
  | succ k ih =>
    obtain ⟨hk, hqk, hle⟩ := ih fun i hi => hf i (Nat.lt_succ_of_lt hi)
    have hi := hf k (Nat.lt_succ_self k)
    have hlt := hi.remaining_lt hk hqk
    exact ⟨hi.steady hk, hi.queueWithin hk hqk, by omega⟩

theorem Steady.propagate_eq (h : e.Steady) (hunchecked : e.checked = false) :
    e.propagate = drain e.runBound e := by
  have hdrained := h.drained
  rw [Engine.propagate]
  generalize drain e.runBound e = outcome at hdrained
  cases hdrained with
  | done e' hruns _ =>
    have hsame : e'.checked = false := (Runs.same hruns).2.trans hunchecked
    simp only [Outcome.andThen, hsame, Bool.false_eq_true, if_false]
  | emptied e' _ => rfl
  | strayed e' c rest _ _ _ => rfl
  | malformed e' cause _ _ _ => rfl

theorem postedEngine_attained : postedEngine.Attained := by
  have hempty : Attained (t := .int32) _ := .empty .standard false
  have hfirst := Attained.request _ (.addRange 0 10) _ _ hempty ⟨rfl, by decide, rfl, rfl⟩ rfl
  have hsecond := Attained.request _ (.addRange 0 10) _ _ hfirst ⟨rfl, by decide, rfl, rfl⟩ rfl
  have hadded : unpostedEngine.Attained :=
    .request _ (.addRange 0 20) _ _ hsecond ⟨rfl, by decide, rfl, rfl⟩ rfl
  have hpost : unpostedEngine.post (.plus 0 1 2) = .done postedEngine 0 := by decide +kernel
  exact .post _ _ (.plus 0 1 2) 0 hadded trivial hpost

/-- The posted engine with an id registered that no propagator has, which the sum is about to
wake. -/
def strayEngine : Engine .int32 :=
  ⟨{ sumStore (.intervals [⟨7, 7⟩]) ⟨[], [0], []⟩ [0] with
      vars := [
        ⟨0, ⟨.intervals [⟨7, 7⟩], 0, ⟨[], [0], []⟩, .empty, false⟩, []⟩,
        ⟨1, ⟨.intervals [⟨0, 10⟩], 0, ⟨[], [0], []⟩, .empty, false⟩, []⟩,
        ⟨2, ⟨.intervals [⟨0, 20⟩], 0, ⟨[], [0, 7], []⟩, .empty, false⟩, []⟩] },
    [.plus 0 1 2], false, [0]⟩

def wideStore (y z : Interval) (model : Subscriptions) (waiting : List ConstraintId) :
    Store .int32 where
  vars := [
    ⟨0, ⟨.intervals [⟨0, 0⟩], 0, model, .empty, false⟩, []⟩,
    ⟨1, ⟨.intervals [y], 0, model, .empty, false⟩, []⟩,
    ⟨2, ⟨.intervals [z], 0, model, .empty, false⟩, []⟩]
  level := 0
  trail := []
  woken := WakeQueue.empty.enqueueAll waiting
  names := .empty
  options := .standard

/-- Posting the sum has failed on these variables, and then the second one has been narrowed. -/
def wideEngine : Engine .int32 :=
  ⟨wideStore ⟨-2147483648, -100⟩ ⟨-200, 5⟩ ⟨[], [0], []⟩ [0], [.plus 0 1 2], false, [0]⟩

theorem wideEngine_attained : wideEngine.Attained := by
  have hempty : Attained (t := .int32) _ := .empty .standard false
  have hfirst := Attained.request _ (.addRange 0 0) _ _ hempty ⟨rfl, by decide, rfl, rfl⟩ rfl
  have hsecond := Attained.request _ (.addRange (-2147483648) 1073741824) _ _ hfirst
    ⟨rfl, by decide, rfl, rfl⟩ rfl
  have hadded : Attained ⟨wideStore ⟨-2147483648, 1073741824⟩ ⟨-200, 5⟩ .empty [], [], false, []⟩ :=
    .request _ (.addRange (-200) 5) _ _ hsecond ⟨rfl, by decide, rfl, rfl⟩ rfl
  have hfailed : Attained ⟨wideStore ⟨-2147483648, 1073741824⟩ ⟨-200, 5⟩ ⟨[], [0], []⟩ [],
      [.plus 0 1 2], false, [0]⟩ :=
    .postFails _ _ (.plus 0 1 2) hadded trivial (by decide +kernel)
  exact .request _ (.narrow 1 (.atMost (-100))) _ _ hfailed
    ⟨by decide, trivial, fun _ _ => trivial⟩ rfl

end Engine
end FiniteDomains
