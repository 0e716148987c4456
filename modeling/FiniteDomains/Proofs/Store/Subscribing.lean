import FiniteDomains.Proofs.Propagator.Settled
import FiniteDomains.Proofs.Wakeup.Subscriptions

/-! Subscribing a propagator to changes. Domains and queue stay as they are, and the propagator's
id is all that can come to wait for a variable. -/
namespace FiniteDomains

namespace Store
variable {t : ValueType} {s s' s'' : Store t} {x : VarId} {v : Variable t} {a c : ConstraintId}
variable {trigger : Trigger}

/-- A store in which nothing has changed but that a constraint may wait for more. -/
structure Enrolled (c : ConstraintId) (s s' : Store t) : Prop where
  wellFormed : s.WellFormed → s'.WellFormed
  level : s'.level = s.level
  domains : s'.domains = s.domains
  woken : s'.woken = s.woken
  registered : ∀ a ∈ s'.registered, a ∈ s.registered ∨ a = c
  subscribed : ∀ a x trigger, s.Subscribed a x trigger → s'.Subscribed a x trigger

theorem Enrolled.refl (c : ConstraintId) (s : Store t) : Enrolled c s s :=
  ⟨id, rfl, rfl, rfl, fun _ => .inl, fun _ _ _ => id⟩

theorem Enrolled.trans (h : Enrolled c s s') (h' : Enrolled c s' s'') : Enrolled c s s'' where
  wellFormed := h'.wellFormed ∘ h.wellFormed
  level := h'.level.trans h.level
  domains := h'.domains.trans h.domains
  woken := h'.woken.trans h.woken
  registered := by
    intro a ha
    rcases h'.registered a ha with ha | rfl
    · exact h.registered a ha
    · exact .inr rfl
  subscribed := fun a x trigger ha => h'.subscribed a x trigger (h.subscribed a x trigger ha)

theorem has_of_domains {xs : List VarId} (h : s'.domains = s.domains) (hx : s.Has xs) :
    s'.Has xs := by
  intro x hmem
  obtain ⟨v, hv⟩ := hx x hmem
  have heq := s'.domains_getElem? x
  rw [h, domains_getElem?, hv] at heq
  obtain ⟨v', hv', -⟩ := Option.map_eq_some_iff.mp heq.symm
  exact ⟨v', hv'⟩

theorem within_of_domains {P : Int → Prop} (h : s'.domains = s.domains) (hw : s.Within P) :
    s'.Within P := by
  intro v' hv' w hmem
  have hin : v'.values ∈ s'.domains := List.mem_map_of_mem hv'
  rw [h] at hin
  obtain ⟨v, hv, heq⟩ := List.mem_map.mp hin
  exact hw v hv w (heq ▸ hmem)

theorem admits_of_domains {σ : VarId → Int} (h : s'.domains = s.domains) (ha : s.Admits σ) :
    s'.Admits σ := by
  intro x v' hv'
  have heq := s'.domains_getElem? x
  rw [h, domains_getElem?, hv', Option.map_some] at heq
  obtain ⟨v, hv, hvalues⟩ := Option.map_eq_some_iff.mp heq
  exact hvalues ▸ ha x v hv

theorem replaced_enrolled {v' : Variable t} (hv : s.vars[x]? = some v)
    (hc : v.Changed s.level v') (hvalues : v'.values = v.values)
    (hsearch : v'.current.search = v.current.search)
    (hmodel : ∀ a other, a ∈ v'.current.model.waiting other ↔
      a ∈ v.current.model.waiting other ∨ a = c ∧ other = trigger) :
    Enrolled c s (s.replaced x v v') ∧ (s.replaced x v v').Subscribed c x trigger := by
  constructor
  · refine ⟨fun h => ?_, rfl, ?_, rfl, ?_, ?_⟩
    · have hfilled := h.current hv
      have hcurrent : v'.current.values = v.current.values := hvalues
      exact h.replaced hv hc ⟨hcurrent ▸ hfilled.valid, hcurrent ▸ hfilled.nonempty⟩
    · apply List.ext_getElem?
      intro y
      rw [domains_getElem?, domains_getElem?, replaced_getElem? hv]
      split
      · next hy => rw [hy, hv, Option.map_some, Option.map_some, hvalues]
      · rfl
    · intro a ha
      obtain ⟨u, hu, hau⟩ := List.mem_flatMap.mp ha
      rcases List.mem_or_eq_of_mem_set hu with hu | rfl
      · exact .inl (List.mem_flatMap.mpr ⟨u, hu, hau⟩)
      · rw [Variable.mem_registered, hsearch] at hau
        rcases hau with ⟨other, hmem⟩ | hmem
        · rcases (hmodel a other).mp hmem with hmem | ⟨heq, -⟩
          · exact .inl (mem_registered hv (Variable.mem_registered.mpr (.inl ⟨other, hmem⟩)))
          · exact .inr heq
        · exact .inl (mem_registered hv (Variable.mem_registered.mpr (.inr hmem)))
    · rintro a y other ⟨u, hu, hmem⟩
      by_cases hy : y = x
      · subst hy
        obtain rfl : u = v := Option.some_inj.mp (hu.symm.trans hv)
        exact ⟨v', by rw [replaced_getElem? hv, if_pos rfl], (hmodel a other).mpr (.inl hmem)⟩
      · exact ⟨u, by rw [replaced_getElem? hv, if_neg hy, hu], hmem⟩
  · exact ⟨v', by rw [replaced_getElem? hv, if_pos rfl], (hmodel c trigger).mpr (.inr ⟨rfl, rfl⟩)⟩

theorem subscribe_enrolled (h : s.Layered) (hv : s.vars[x]? = some v) (c : ConstraintId)
    (trigger : Trigger) : ∃ s' added, s.subscribe x c trigger = .done s' added ∧
      Enrolled c s s' ∧ s'.Subscribed c x trigger := by
  have hs : v.stamp ≤ s.level := h.stamp_le v (List.mem_of_getElem? hv)
  have hchanged := v.subscribe_changed s.level c trigger
  rw [subscribe, h.update_eq hv]
  by_cases hc : c ∈ v.current.model.waiting trigger
  · have hsame : v.subscribe s.level c trigger = .done v false := by simp [Variable.subscribe, hc]
    simp only [hsame, Outcome.mapState, replaced_self hv]
    exact ⟨s, false, rfl, .refl c s, v, hv, hc⟩
  · obtain ⟨own, hown, hvalues, hmodel, hsearch⟩ := v.own_version s.level
    have hdone : v.subscribe s.level c trigger =
        .done (own.setModel (own.current.model.insert c trigger).2)
          (own.current.model.insert c trigger).1 := by
      simp [Variable.subscribe, hc, Variable.atOwnVersion, Variable.atLevel_of_le hs, hown]
    rw [hdone] at hchanged
    simp only [hdone, Outcome.mapState]
    refine ⟨_, _, rfl, replaced_enrolled hv hchanged hvalues hsearch fun a other => ?_⟩
    rw [← hmodel]
    exact Subscriptions.mem_insert

theorem subscribeAll_enrolled {subscriptions : List (VarId × Trigger)} (h : s.WellFormed)
    (hx : s.Has (subscriptions.map Prod.fst)) (c : ConstraintId) :
    ∃ s', Propagator.subscribeAll c subscriptions s = .done s' () ∧ Enrolled c s s' ∧
      ∀ subscription ∈ subscriptions, s'.Subscribed c subscription.1 subscription.2 := by
  induction subscriptions generalizing s with
  | nil => exact ⟨s, rfl, .refl c s, by simp⟩
  | cons subscription subscriptions ih =>
    obtain ⟨v, hv⟩ := hx subscription.1 (by simp)
    obtain ⟨s₁, added, hout, henroll, hsub⟩ :=
      subscribe_enrolled h.toLayered hv c subscription.2
    have hx₁ : s₁.Has (subscriptions.map Prod.fst) := by
      refine has_of_domains henroll.domains fun x hmem => hx x ?_
      rw [List.map_cons]
      exact List.mem_cons_of_mem _ hmem
    obtain ⟨s₂, hout', henroll', hsub'⟩ := ih (henroll.wellFormed h) hx₁
    refine ⟨s₂, ?_, henroll.trans henroll', ?_⟩
    · simp only [Propagator.subscribeAll, bind, hout, Outcome.andThen, hout']
    · intro other hmem
      rcases List.mem_cons.mp hmem with rfl | hmem
      · exact henroll'.subscribed _ _ _ hsub
      · exact hsub' other hmem

end Store
end FiniteDomains
