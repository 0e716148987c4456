import FiniteDomains.Proofs.Engine.Iteration
import FiniteDomains.Proofs.Store.Subscribing

/-! Posting a propagator: it subscribes, is run once, and then all that it wakes. -/
namespace FiniteDomains

theorem Propagator.Builtin.subscribe_eq {t : ValueType} {p : Propagator t} (hp : p.Builtin)
    (c : ConstraintId) (s : Store t) : p.subscribe c s = subscribeAll c p.subscriptions s := by
  have hfails : p.failsAtRoot = false := by
    cases p with
    | script body => exact absurd hp id
    | _ => rfl
  simp only [subscribe, bind, hfails, Outcome.andThen]
  cases subscribeAll c p.subscriptions s <;> rfl

namespace Store
variable {t : ValueType} {s s' : Store t} {c : ConstraintId}

theorem subscribeAll_fault {subscriptions : List (VarId × Trigger)} (h : s.WellFormed)
    (hx : ¬s.Has (subscriptions.map Prod.fst)) :
    ∃ cause, Propagator.subscribeAll c subscriptions s = .fault cause := by
  induction subscriptions generalizing s with
  | nil => exact absurd (by simp [Has]) hx
  | cons subscription subscriptions ih =>
    cases hv : s.vars[subscription.1]? with
    | none =>
      refine ⟨.noSuchEntry, ?_⟩
      simp only [Propagator.subscribeAll, bind, Store.subscribe, update_missing hv,
        Outcome.andThen]
    | some v =>
      obtain ⟨s₁, added, hsub, henroll, -⟩ :=
        subscribe_enrolled h.toLayered hv c subscription.2
      have hx₁ : ¬s₁.Has (subscriptions.map Prod.fst) := by
        refine fun hrest => hx fun x hmem => ?_
        rcases List.mem_cons.mp hmem with rfl | hmem
        · exact ⟨v, hv⟩
        · exact has_of_domains henroll.domains.symm hrest x hmem
      obtain ⟨cause, hfault⟩ := ih (henroll.wellFormed h) hx₁
      refine ⟨cause, ?_⟩
      simp only [Propagator.subscribeAll, bind, hsub, Outcome.andThen, hfault]

theorem has_of_subscribeAll {subscriptions : List (VarId × Trigger)} (h : s.WellFormed)
    (hout : Propagator.subscribeAll c subscriptions s = .done s' ()) :
    s.Has (subscriptions.map Prod.fst) := by
  by_contra hx
  obtain ⟨cause, hfault⟩ := subscribeAll_fault (c := c) h hx
  rw [hfault] at hout
  cases hout

end Store

namespace Engine
variable {t : ValueType} {e e' : Engine t} {c : ConstraintId} {p : Propagator t} {s : Store t}

def posted (e : Engine t) (p : Propagator t) (s : Store t) : Engine t :=
  { e with store := s, propagators := e.propagators ++ [p] }

theorem post_root (hout : e.post p = .done e' c) : e.store.level = 0 := by
  by_contra hne
  simp only [post, ne_eq, hne, not_false_eq_true, if_true] at hout
  cases hout

theorem posted_getElem? (e : Engine t) (p : Propagator t) (s : Store t) :
    (e.posted p s).propagators[e.propagators.length]? = some p := by
  simp [posted]

theorem posted_cases {q : Propagator t} (h : (e.posted p s).propagators[c]? = some q) :
    e.propagators[c]? = some q ∨ c = e.propagators.length ∧ q = p := by
  by_cases hlt : c < e.propagators.length
  · rw [posted, List.getElem?_append_left hlt] at h
    exact .inl h
  · obtain ⟨hc, hq⟩ := List.getElem?_eq_some_iff.mp h
    have heq : c = e.propagators.length := by
      simp only [posted, List.length_append, List.length_singleton] at hc
      exact Nat.le_antisymm (Nat.le_of_lt_succ hc) (Nat.le_of_not_lt hlt)
    subst heq
    rw [posted_getElem?, Option.some_inj] at h
    exact .inr ⟨rfl, h.symm⟩

theorem Steady.posted (h : e.Steady) (hp : p.Builtin) (hx : e.store.Has p.vars)
    (hs : Store.Enrolled e.propagators.length e.store s) : (e.posted p s).Steady where
  wellFormed := hs.wellFormed h.wellFormed
  builtin := by
    intro q hq
    rcases List.mem_append.mp hq with hq | hq
    · exact h.builtin q hq
    · obtain rfl := List.mem_singleton.mp hq
      exact hp
  has := by
    intro q hq
    rcases List.mem_append.mp hq with hq | hq
    · exact Store.has_of_domains hs.domains (h.has q hq)
    · obtain rfl := List.mem_singleton.mp hq
      exact Store.has_of_domains hs.domains hx

theorem Proper.posted (h : e.Proper) (hp : p.Builtin) (hx : e.store.Has p.vars)
    (hs : Store.Enrolled e.propagators.length e.store s) : (e.posted p s).Proper where
  wellFormed := hs.wellFormed h.wellFormed
  builtin := (h.steady.posted hp hx hs).builtin
  has := (h.steady.posted hp hx hs).has
  queued := by
    intro a ha
    have hwoken : s.woken = e.store.woken := hs.woken
    have hlt := h.queued a (hwoken ▸ ha)
    simp only [Engine.posted, List.length_append]
    exact Nat.lt_add_right _ hlt
  registered := by
    intro a ha
    simp only [Engine.posted, List.length_append, List.length_singleton]
    rcases hs.registered a ha with ha | rfl
    · exact Nat.lt_succ_of_lt (h.registered a ha)
    · exact Nat.lt_succ_self _

theorem Proper.post_eq (h : e.Proper) (hroot : e.store.level = 0) (hp : p.Builtin)
    (hx : e.store.Has p.vars) :
    ∃ s, Store.Enrolled e.propagators.length e.store s ∧
      p.Registered e.propagators.length s ∧
      e.post p = ((e.posted p s).runWoken e.propagators.length).andThen fun e' _ =>
        e'.propagate.andThen fun e' _ => .done e' e.propagators.length := by
  obtain ⟨s, hout, henroll, hreg⟩ :=
    Store.subscribeAll_enrolled h.wellFormed hx e.propagators.length
  refine ⟨s, henroll, hreg, ?_⟩
  simp only [post, hp.subscribe_eq, hout, Outcome.resume, hroot, ne_eq, not_true_eq_false, if_false]
  rfl

end Engine
end FiniteDomains
