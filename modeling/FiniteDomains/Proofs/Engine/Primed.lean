import FiniteDomains.Proofs.Engine.Covered

/-! Engines whose propagators that exclude a value are settled. All steps keep this, and on such an
engine the check of fixed points finds every propagator that is not settled. -/
namespace FiniteDomains.Engine
variable {t : ValueType} {e e' e'' : Engine t} {c : ConstraintId} {p : Propagator t} {s : Store t}
variable {n : Narrowing t}

/-- A tracked engine whose propagators that exclude a value are settled. -/
structure Primed (e : Engine t) : Prop extends e.Tracked where
  excluded : ∀ x a, .notEqual x a ∈ e.propagators → (Propagator.notEqual x a).Settled e.store

/-- A primed engine with the propagators of another one and with its lower levels. -/
structure Stays (e e' : Engine t) : Prop where
  primed : e'.Primed
  propagators : e'.propagators = e.propagators
  level : e'.store.level = e.store.level
  below : ∀ low < e.store.level, e'.store.restored low = e.store.restored low

theorem AllSettled.primed (h : e.AllSettled) (htracked : e.Tracked) : e.Primed :=
  ⟨htracked, fun _ _ hmem => h _ hmem⟩

theorem Stays.trans (h : e.Stays e') (h' : e'.Stays e'') : e.Stays e'' where
  primed := h'.primed
  propagators := h'.propagators.trans h.propagators
  level := h'.level.trans h.level
  below := fun low hlow => (h'.below low (h.level ▸ hlow)).trans (h.below low hlow)

variable [t.Lawful]

theorem Primed.of_domains (h : e.Primed) (h' : e'.Tracked)
    (hps : e'.propagators = e.propagators) (hdom : e'.store.domains = e.store.domains) :
    e'.Primed := by
  refine ⟨h', fun x a hmem => ?_⟩
  have hmem' : .notEqual x a ∈ e.propagators := hps ▸ hmem
  have hbuiltin := h.builtin _ hmem'
  exact hbuiltin.settled_of_domains h.regular h'.regular (h.has _ hmem') (h'.has _ hmem) hdom
    (h.excluded x a hmem')

theorem Primed.shrunk (h : e.Primed) (hs : e.store.Shrunk s) (runs : List ConstraintId) :
    e.Stays { e with store := s, runs := runs } := by
  have htracked := h.toTracked.shrunk hs runs
  refine ⟨⟨htracked, fun x a hmem => ?_⟩, rfl, hs.tighter.level,
    fun _ hlow => hs.restored h.wellFormed hlow⟩
  obtain ⟨v, hv⟩ := h.has _ hmem x (by simp [Propagator.vars, Propagator.subscriptions])
  exact Propagator.notEqual_settled_tighter h.regular htracked.regular hv hs.tighter
    (h.excluded x a hmem)

theorem Primed.forgetWoken (h : e.Primed) : e.Stays e.forgetWoken :=
  ⟨h.of_domains h.toTracked.forgetWoken rfl rfl, rfl, rfl, fun _ _ => rfl⟩

theorem Primed.popped (h : e.Primed) {rest : List ConstraintId}
    (hwait : e.store.woken.waiting = c :: rest) : e.Stays e.popped :=
  ⟨h.of_domains (h.toTracked.popped hwait) rfl rfl, rfl, rfl, fun _ _ => rfl⟩

theorem Primed.iterates (h : e.Primed) (hi : e.Iterates e') : e.Stays e' := by
  obtain ⟨c, rest, p, s, hwait, hp, hout⟩ := hi
  have hpopped := h.popped hwait
  have hshrunk := hpopped.primed.steady.run_shrunk hp hout
  exact hpopped.trans (hpopped.primed.shrunk hshrunk _)

theorem Primed.runs (h : e.Primed) (hr : e.Runs e') : e.Stays e' := by
  induction hr with
  | refl => exact h.shrunk (.refl _) e.runs
  | tail _ hi ih => exact ih.trans (ih.primed.iterates hi)

theorem Primed.breaks (h : e.Primed) (hb : e.Breaks e') : e.Stays e' := by
  obtain ⟨c, rest, p, s, hwait, hp, hout⟩ := hb
  have hpopped := h.popped hwait
  have hmem := List.mem_of_getElem? hp
  have hends := (h.builtin p hmem).ends hpopped.primed.wellFormed
    hpopped.primed.regular.negatable (hpopped.primed.has p hmem)
  have hran := hpopped.primed.shrunk (hends.emptied hout) (c :: e.runs)
  exact hpopped.trans (hran.trans hran.primed.forgetWoken)

theorem Primed.settles (h : e.Primed) (hs : e.Settles e') : e.Stays e' := by
  obtain ⟨e₁, runs, hruns, -, rfl⟩ := hs
  have hstays := h.runs hruns
  exact hstays.trans (hstays.primed.shrunk (.refl _) runs)

theorem Primed.narrow (h : e.Primed) (x : VarId) (hn : n.Proper) :
    (e.store.narrow x n).Leaves fun s => e.Stays (e.withStore s) :=
  (Store.narrow_shrunk h.wellFormed x hn (h.regular.room x n)).imp fun _ hs => h.shrunk hs _

/-! ### The check of fixed points -/

theorem Tracked.recheck_step (h : e.Tracked) (hmem : p ∈ e.propagators) (settled : Bool)
    (c : ConstraintId) (ps : List (Propagator t)) :
    ∃ (quiet : Bool) (e₁ : Engine t), e₁.Tracked ∧ e₁.propagators = e.propagators ∧
      recheck settled e c (p :: ps) = recheck (settled && quiet) e₁ (c + 1) ps ∧
      (quiet = true → ∃ s, p.propagate e.store = .done s () ∧ s.woken.waiting = []) := by
  have hends := (h.builtin p hmem).ends h.wellFormed h.regular.negatable (h.has p hmem)
  simp only [recheck, Engine.run]
  cases hout : p.propagate e.store with
  | done s result =>
    have htracked := (h.shrunk (hends.done hout) (c :: e.runs)).forgetWoken
    refine ⟨s.woken.isEmpty, _, htracked, rfl, ?_, fun hempty => ⟨s, rfl, ?_⟩⟩
    · simp only [Outcome.mapState, Outcome.resume, Option.isSome_some, Bool.and_true]
    · exact WakeQueue.isEmpty_iff.mp hempty
  | emptied s =>
    have htracked := (h.shrunk (hends.emptied hout) (c :: e.runs)).forgetWoken
    refine ⟨false, _, htracked, rfl, ?_, fun hfalse => by cases hfalse⟩
    simp only [Outcome.mapState, Outcome.resume, Option.isSome_none, Bool.and_false,
      Bool.false_and]
  | fault cause => exact absurd hout (hends.ne_fault cause)

theorem Tracked.recheck_missed (h : e.Tracked) {ps : List (Propagator t)}
    (hps : ∀ p ∈ ps, p ∈ e.propagators) (c : ConstraintId) :
    recheck false e c ps = .fault .notAtFixedPoint := by
  induction ps generalizing e c with
  | nil => rfl
  | cons p ps ih =>
    obtain ⟨quiet, e₁, h₁, hsame, hstep, -⟩ :=
      h.recheck_step (hps p List.mem_cons_self) false c ps
    rw [hstep, Bool.false_and]
    exact ih h₁ (fun q hq => hsame ▸ hps q (List.mem_cons_of_mem _ hq)) (c + 1)

theorem Primed.recheck_unsettled (h : e.Primed) (hwait : e.store.woken.waiting = [])
    {ps : List (Propagator t)} (hps : ∀ p ∈ ps, p ∈ e.propagators)
    (hun : ∃ p ∈ ps, ¬p.Settled e.store) (c : ConstraintId) :
    recheck true e c ps = .fault .notAtFixedPoint := by
  induction ps generalizing e c with
  | nil =>
    obtain ⟨p, hp, -⟩ := hun
    cases hp
  | cons p ps ih =>
    have hmem := hps p List.mem_cons_self
    have hrest : ∀ q ∈ ps, q ∈ e.propagators := fun q hq => hps q (List.mem_cons_of_mem _ hq)
    have hbuiltin := h.builtin p hmem
    by_cases hset : p.Settled e.store
    · rw [recheck_cons hwait ((hbuiltin.settled_iff h.wellFormed (h.has p hmem)).mp hset)]
      obtain ⟨q, hq, hqun⟩ := hun
      rcases List.mem_cons.mp hq with rfl | hq
      · exact absurd hset hqun
      · exact ih (h.shrunk (.refl _) (c :: e.runs)).primed hwait hrest ⟨q, hq, hqun⟩ (c + 1)
    · -- a propagator that excludes a value would wake nothing, but those are settled
      obtain ⟨a, ha⟩ := List.getElem?_of_mem hmem
      have hne : ∀ x v, p ≠ .notEqual x v := by
        rintro x v rfl
        exact hset (h.excluded x v hmem)
      have hwakes := hbuiltin.fails_or_wakes h.regular (h.subscribed a p ha) hne hset
      obtain ⟨quiet, e₁, h₁, hsame, hstep, hquiet⟩ := h.recheck_step hmem true c ps
      have hmissed : quiet = false := by
        cases quiet with
        | false => rfl
        | true =>
          obtain ⟨s, hout, hempty⟩ := hquiet rfl
          have hwoken := hwakes.done hout
          rw [hempty] at hwoken
          cases hwoken
      rw [hstep, hmissed, Bool.and_false]
      exact h₁.recheck_missed (fun q hq => hsame ▸ hrest q hq) (c + 1)

/-- With nothing waiting, propagation does nothing for a propagator that is not settled. Only the
check notices that. -/
theorem Primed.propagate_unsettled (h : e.Primed) (hwait : e.store.woken.waiting = [])
    (hun : ¬e.AllSettled) :
    e.propagate = if e.checked then .fault .notAtFixedPoint else .done e () := by
  have hexists : ∃ p ∈ e.propagators, ¬p.Settled e.store := by
    simpa [AllSettled] using hun
  simp only [Engine.propagate, drain_empty hwait e.runBound_pos, Outcome.andThen]
  split
  · exact h.recheck_unsettled hwait (fun _ hp => hp) hexists 0
  · rfl

end FiniteDomains.Engine
