import FiniteDomains.Proofs.Store.Values

/-! Actions that narrow the bounds of some variables. Such an action ends with no faults but those
of its own calculations; where it changes nothing it changes nothing on any store with the same
bounds; and any change it makes wakes the constraints that wait for the bounds of all the
variables. -/
namespace FiniteDomains

namespace Narrowing
variable {t : ValueType} {n : Narrowing t}

/-- A narrowing that keeps all that lies between two values that it keeps. -/
structure Convex (n : Narrowing t) : Prop extends n.Accepted where
  between : ∀ a b w, n.Keeps a → n.Keeps b → a ≤ w → w ≤ b → n.Keeps w

theorem convex_within (lo hi : Int) : (.within lo hi : Narrowing t).Convex where
  proper := trivial
  not_refused := fun _ href => href
  room := fun _ => trivial
  between := fun _ _ _ ha hb hlo hhi => ⟨Int.le_trans ha.1 hlo, Int.le_trans hhi hb.2⟩

theorem convex_atLeast (lo : Int) : (.atLeast lo : Narrowing t).Convex where
  proper := trivial
  not_refused := fun _ href => href
  room := fun _ => trivial
  between := fun _ _ _ ha _ hlo _ => Int.le_trans ha hlo

theorem convex_atMost (hi : Int) : (.atMost hi : Narrowing t).Convex where
  proper := trivial
  not_refused := fun _ href => href
  room := fun _ => trivial
  between := fun _ _ _ _ hb _ hhi => Int.le_trans hhi hb

end Narrowing

/-- An action narrows the bounds of some variables and depends on nothing else. Its calculations may
end in faults of some kind. -/
structure Action.Tightens {t : ValueType} {α : Type} (F : Fault → Prop) (xs : List VarId)
    (action : Action (Store t) α) : Prop where
  ends : ∀ s, s.WellFormed → s.Has xs →
    (action s).EndsUnless F (fun s' _ => s.Shrunk s') s.Shrunk
  quiet : ∀ s s' r, s.Regular → s'.Regular → s.Has xs → s'.Has xs → Store.AlikeOn xs s s' →
    action s = .done s r → action s' = .done s' r
  wakes : ∀ s s' r c, s.Regular → (∀ x ∈ xs, s.Subscribed c x .bound) →
    action s = .done s' r → s' = s ∨ c ∈ s'.woken.waiting

namespace Action.Tightens
variable {t : ValueType} {α β : Type} {xs : List VarId} {x : VarId} {s s' : Store t}
variable {F : Fault → Prop}

theorem subscribed_has {c : ConstraintId} (h : ∀ x ∈ xs, s.Subscribed c x .bound) : s.Has xs := by
  intro x hx
  obtain ⟨v, hv, -⟩ := h x hx
  exact ⟨v, hv⟩

theorem shrunk {action : Action (Store t) α} (h : action.Tightens F xs) (hs : s.WellFormed)
    (hx : s.Has xs) {r : α} (hout : action s = .done s' r) : s.Shrunk s' :=
  (h.ends s hs hx).done hout

theorem pure (a : α) : (Pure.pure a : Action (Store t) α).Tightens F xs where
  ends := fun s _ _ => Store.Shrunk.refl s
  quiet := by
    intro s s' r _ _ _ _ _ hout
    cases hout
    rfl
  wakes := by
    intro s s' r c _ _ hout
    cases hout
    exact .inl rfl

theorem failing : (Action.failing : Action (Store t) α).Tightens F xs where
  ends := fun s _ _ => Store.Shrunk.refl s
  quiet := by
    intro s s' r _ _ _ _ _ hout
    cases hout
  wakes := by
    intro s s' r c _ _ hout
    cases hout

theorem reading_done {f : Store t → Except Fault α} {r : α}
    (h : Action.reading f s = .done s' r) : f s = .ok r ∧ s' = s := by
  simp only [Action.reading, Outcome.ofExcept] at h
  split at h
  · next a ha =>
    cases h
    exact ⟨ha, rfl⟩
  · cases h

theorem reading_ok {f : Store t → Except Fault α} {r : α} (h : f s = .ok r) :
    Action.reading f s = .done s r := by
  simp only [Action.reading, h, Outcome.ofExcept]

theorem lift {result : Except Fault α} (h : ∀ cause, result = .error cause → F cause) :
    (Action.lift result : Action (Store t) α).Tightens F xs where
  ends := by
    intro s _ _
    cases result with
    | ok a => exact Store.Shrunk.refl s
    | error cause => exact h cause rfl
  quiet := by
    intro s s' r _ _ _ _ _ hout
    obtain ⟨hr, -⟩ := reading_done hout
    exact reading_ok hr
  wakes := by
    intro s s' r c _ _ hout
    exact .inl (reading_done hout).2

theorem reading {f : Store t → Except Fault α} (hf : ReadsBounds xs f) :
    (Action.reading f).Tightens F xs where
  ends := by
    intro s h hx
    obtain ⟨r, hr⟩ := hf.total s h hx
    rw [reading_ok hr]
    exact .refl s
  quiet := by
    intro s s' r _ _ _ _ halike hout
    obtain ⟨hr, -⟩ := reading_done hout
    rw [hf.alike s s' halike] at hr
    exact reading_ok hr
  wakes := by
    intro s s' r c _ _ hout
    exact .inl (reading_done hout).2

theorem bind_done {action : Action (Store t) α} {next : α → Action (Store t) β} {b : β}
    (h : (action >>= next) s = .done s' b) :
    ∃ s₁ a, action s = .done s₁ a ∧ next a s₁ = .done s' b := by
  simp only [Bind.bind, Outcome.andThen] at h
  split at h
  · next s₁ a ha => exact ⟨s₁, a, ha, h⟩
  · cases h
  · cases h

theorem bind {action : Action (Store t) α} {next : α → Action (Store t) β}
    (ha : action.Tightens F xs) (hn : ∀ a, (next a).Tightens F xs) :
    (action >>= next).Tightens F xs where
  ends := by
    intro s h hx
    refine (ha.ends s h hx).andThen (fun s₁ a hs₁ => ?_) fun _ hs₁ => hs₁
    have hrest := (hn a).ends s₁ (hs₁.wellFormed h) (hs₁.tighter.has hx)
    exact hrest.imp (fun _ _ hs₂ => hs₁.trans hs₂) fun _ hs₂ => hs₁.trans hs₂
  quiet := by
    intro s s' r h h' hx hx' halike hout
    obtain ⟨s₁, a, hout₁, hout₂⟩ := bind_done hout
    have hthere := ha.shrunk h.toWellFormed hx hout₁
    have hback := (hn a).shrunk (hthere.wellFormed h.toWellFormed) (hthere.tighter.has hx) hout₂
    obtain rfl := hthere.antisymm hback h.toWellFormed
    simp only [Bind.bind, ha.quiet s₁ s' a h h' hx hx' halike hout₁, Outcome.andThen]
    exact (hn a).quiet s₁ s' r h h' hx hx' halike hout₂
  wakes := by
    intro s s' r c h hsub hout
    obtain ⟨s₁, a, hout₁, hout₂⟩ := bind_done hout
    have hshrunk := ha.shrunk h.toWellFormed (subscribed_has hsub) hout₁
    have hsub₁ : ∀ x ∈ xs, s₁.Subscribed c x .bound := fun x hx =>
      hshrunk.tighter.subscribed (hsub x hx)
    rcases (hn a).wakes s₁ s' r c (hshrunk.regular h) hsub₁ hout₂ with rfl | hc
    · exact ha.wakes s s' a c h hsub hout₁
    · exact .inr hc

theorem ite {p : Prop} [Decidable p] {action other : Action (Store t) α}
    (ha : action.Tightens F xs) (ho : other.Tightens F xs) :
    (if p then action else other).Tightens F xs := by
  split
  · exact ha
  · exact ho

theorem onlyIf {test : Store t → Except Fault Bool} {action : Action (Store t) Unit}
    (ht : ReadsBounds xs test) (ha : action.Tightens F xs) :
    (onlyIf test action).Tightens F xs := by
  refine (reading ht).bind fun holds => ?_
  exact ite ha (pure ())

variable [t.Lawful] {n : Narrowing t}

theorem narrowVar (hx : x ∈ xs) (hn : n.Convex) : (narrowVar x n).Tightens F xs where
  ends := by
    intro s h hxs
    obtain ⟨v, hv⟩ := hxs x hx
    exact (h.narrow_shrunk_ends hv hn.toAccepted).unless
  quiet := by
    intro s s' r h h' hxs hxs' halike hout
    obtain ⟨v, hv⟩ := hxs x hx
    obtain ⟨v', hv'⟩ := hxs' x hx
    obtain ⟨b, hb⟩ := h.boundedBy hv
    obtain ⟨b', hb'⟩ := h'.boundedBy hv'
    obtain ⟨hlo, hhi⟩ := halike x hx
    rw [hb.lower, hb'.lower, Except.ok.injEq] at hlo
    rw [hb.upper, hb'.upper, Except.ok.injEq] at hhi
    obtain ⟨rfl, hall⟩ := (h.narrow_self_iff hv hn.toAccepted).mp hout
    refine (h'.narrow_self_iff hv' hn.toAccepted).mpr ⟨rfl, fun w hw => ?_⟩
    refine hn.between b.lo b.hi w (hall _ hb.least.1) (hall _ hb.greatest.1) ?_ ?_
    · exact hlo ▸ hb'.least.2 hw
    · exact hhi ▸ hb'.greatest.2 hw
  wakes := by
    intro s s' r c h hsub hout
    obtain ⟨v, hv, -⟩ := hsub x hx
    rcases Store.narrow_done h.toWellFormed hv hn.proper (hn.room v.values) hout with
      ⟨d, -, -, heq, -⟩ | ⟨d, hd, hpart, rfl, -⟩
    · exact .inl heq
    refine .inr (Store.wakes_on_bound hv hpart (hsub x hx) ?_)
    -- if both ends are kept then so is all between them, and the narrowing changes nothing
    by_contra hsame
    obtain ⟨hmin, hmax⟩ : d.min? = v.values.min? ∧ d.max? = v.values.max? := by
      simpa only [ne_eq, not_or, not_not] using hsame
    obtain ⟨b, hb⟩ := h.boundedBy hv
    have hlo := (Domain.min?_isLeast hd.valid.consistent (hmin.trans hb.min_eq)).1
    have hhi := (Domain.max?_isGreatest hd.valid.consistent (hmax.trans hb.max_eq)).1
    have hall : ∀ w ∈ v.values, n.Keeps w := fun w hw =>
      hn.between b.lo b.hi w ((hd.mem _).mp hlo).2 ((hd.mem _).mp hhi).2 (hb.least.2 hw)
        (hb.greatest.2 hw)
    have hself := Store.narrow_of_keeps h.toWellFormed hv hn.toAccepted hall
    have hout' : s.narrow x n = .done (s.narrowed x v d) r := hout
    rw [hself, Outcome.done.injEq] at hout'
    have hlt := (Store.Shrinks.at x v d hv hpart).cardinality_lt h.toWellFormed
    rw [← hout'.1] at hlt
    exact Nat.lt_irrefl _ hlt

end Action.Tightens
end FiniteDomains
