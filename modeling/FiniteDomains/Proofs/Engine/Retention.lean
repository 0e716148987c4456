import FiniteDomains.Proofs.Engine.Posting

/-! What no propagator destroys. A property of the domains that every run of a posted propagator
keeps, and under which no run fails, is kept by propagation and posting, and neither can fail. -/
namespace FiniteDomains.Engine
variable {t : ValueType} {e e' : Engine t} {c : ConstraintId} {p : Propagator t}
variable {ps : List (Propagator t)} {P : Store t → Prop}

/-- A property of domains in the universe that runs of some propagators keep, none of which fails
under it. -/
structure RetainedBy (ps : List (Propagator t)) (P : Store t → Prop) : Prop where
  admissible : ∀ s, P s → s.Within t.Admissible
  of_domains : ∀ s s', s'.domains = s.domains → P s → P s'
  run : ∀ p ∈ ps, ∀ s, s.WellFormed → s.Has p.vars → P s →
    ∃ s', p.propagate s = .done s' () ∧ P s'

/-- A proper engine with a property that runs of its propagators keep. -/
structure Retaining (e : Engine t) (P : Store t → Prop) : Prop extends e.Proper where
  retained : RetainedBy e.propagators P
  holds : P e.store

theorem Retaining.regular (h : e.Retaining P) : e.store.Regular :=
  ⟨h.wellFormed, h.retained.admissible e.store h.holds⟩

theorem Retaining.popped (h : e.Retaining P) {rest : List ConstraintId}
    (hwait : e.store.woken.waiting = c :: rest) : e.popped.Retaining P :=
  ⟨h.toProper.popped hwait, h.retained, h.retained.of_domains e.store _ rfl h.holds⟩

theorem Retaining.forgetWoken (h : e.Retaining P) : e.forgetWoken.Retaining P :=
  ⟨h.toProper.forgetWoken, h.retained, h.retained.of_domains e.store _ rfl h.holds⟩

variable [t.Lawful]

theorem Retaining.run (h : e.Retaining P) (hp : p ∈ e.propagators) :
    ∃ s, p.propagate e.store = .done s () ∧ ∀ c, (e.ran c s).Retaining P := by
  obtain ⟨s, hout, hs⟩ := h.retained.run p hp e.store h.wellFormed (h.has p hp) h.holds
  have hshrunk := (h.builtin p hp).shrunk h.wellFormed (h.has p hp) hout
  exact ⟨s, hout, fun c => ⟨h.toProper.shrunk hshrunk _, h.retained, hs⟩⟩

theorem Retaining.iterates (h : e.Retaining P) (hi : e.Iterates e') : e'.Retaining P := by
  obtain ⟨c, rest, p, s, hwait, hp, hout⟩ := hi
  obtain ⟨s', hout', hran⟩ := (h.popped hwait).run (List.mem_of_getElem? hp)
  obtain rfl := (Outcome.done.inj (hout.symm.trans hout')).1
  exact hran c

theorem Retaining.not_breaks (h : e.Retaining P) : ¬e.Breaks e' := by
  rintro ⟨c, rest, p, s, hwait, hp, hout⟩
  obtain ⟨s', hout', -⟩ := (h.popped hwait).run (List.mem_of_getElem? hp)
  cases hout.symm.trans hout'

theorem Retaining.runs (h : e.Retaining P) (hr : e.Runs e') : e'.Retaining P := by
  induction hr with
  | refl => exact h
  | tail _ hi ih => exact ih.iterates hi

theorem Retaining.drain (h : e.Retaining P) :
    ∃ e', drain e.runBound e = .done e' () ∧ e'.Retaining P ∧ e'.checked = e.checked := by
  have hends := h.toProper.drain_ends h.regular.negatable
  cases hout : Engine.drain e.runBound e with
  | done e' result =>
    have hruns := (hends.done hout).1
    exact ⟨e', rfl, h.runs hruns, hruns.same.2⟩
  | emptied e' =>
    obtain ⟨e₁, hruns, hbreaks⟩ := hends.emptied hout
    exact absurd hbreaks (h.runs hruns).not_breaks
  | fault cause => exact absurd hout (hends.ne_fault cause)

theorem Retaining.recheck (h : e.Retaining P) (hps : ∀ p ∈ ps, p ∈ e.propagators)
    (settled : Bool) (c : ConstraintId) :
    (∃ e', recheck settled e c ps = .done e' () ∧ e'.Retaining P) ∨
      recheck settled e c ps = .fault .notAtFixedPoint := by
  induction ps generalizing e settled c with
  | nil =>
    simp only [Engine.recheck]
    split
    · exact .inl ⟨e, rfl, h⟩
    · exact .inr rfl
  | cons p ps ih =>
    obtain ⟨s, hout, hran⟩ := h.run (hps p List.mem_cons_self)
    simp only [Engine.recheck, Engine.run, hout, Outcome.mapState, Outcome.resume]
    exact ih (hran c).forgetWoken (fun q hq => hps q (List.mem_cons_of_mem _ hq)) _ _

/-- Propagation succeeds and keeps the property, unless the check of fixed points stops it. -/
theorem Retaining.propagate (h : e.Retaining P) :
    (∃ e', e.propagate = .done e' () ∧ e'.Retaining P) ∨
      e.checked = true ∧ e.propagate = .fault .notAtFixedPoint := by
  obtain ⟨e', hdrain, h', hchecked⟩ := h.drain
  simp only [Engine.propagate, hdrain, Outcome.andThen, hchecked]
  split
  · next hc =>
    rcases h'.recheck (fun p hp => hp) true 0 with hdone | hfault
    · exact .inl hdone
    · exact .inr ⟨hc, hfault⟩
  · exact .inl ⟨e', rfl, h'⟩

theorem Proper.post_retains (h : e.Proper) (hret : RetainedBy (e.propagators ++ [p]) P)
    (hP : P e.store) (hroot : e.store.level = 0) (hp : p.Builtin) (hx : e.store.Has p.vars) :
    (∃ e', e.post p = .done e' e.propagators.length ∧ e'.Retaining P) ∨
      e.checked = true ∧ e.post p = .fault .notAtFixedPoint := by
  obtain ⟨s, henroll, -, hpost⟩ := h.post_eq hroot hp hx
  have hposted : (e.posted p s).Retaining P :=
    ⟨h.posted hp hx henroll, hret, hret.of_domains e.store _ henroll.domains hP⟩
  have hget := posted_getElem? e p s
  obtain ⟨s', hout, hran⟩ := hposted.run (List.mem_of_getElem? hget)
  have hrun : (e.posted p s).runWoken e.propagators.length =
      .done ((e.posted p s).ran e.propagators.length s') () := by
    simp only [runWoken, hget, Engine.run, hout, Outcome.mapState]
    rfl
  rw [hpost, hrun]
  simp only [Outcome.andThen]
  rcases (hran e.propagators.length).propagate with ⟨e', hdone, h'⟩ | ⟨hc, hfault⟩
  · exact .inl ⟨e', by rw [hdone], h'⟩
  · exact .inr ⟨hc, by rw [hfault]⟩

end FiniteDomains.Engine
