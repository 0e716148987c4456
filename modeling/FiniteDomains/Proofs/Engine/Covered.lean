import FiniteDomains.Proofs.Engine.Posting

/-! Engines on the way to a common fixed point: every propagator that has something to do waits in
the queue. Narrowing, levels, posting and every turn of the loop keep this, so when the queue is
empty all propagators are settled. -/
namespace FiniteDomains

namespace Store
variable {t : ValueType} {s : Store t}

theorem Regular.of_domains {s' : Store t} (h : s.Regular) (hwf : s'.WellFormed)
    (hdom : s'.domains = s.domains) : s'.Regular :=
  ⟨hwf, within_of_domains hdom h.admissible⟩

theorem Regular.withWoken (h : s.Regular) (q : WakeQueue) :
    ({ s with woken := q } : Store t).Regular :=
  ⟨⟨h.toLayered.withWoken q, h.filled⟩, h.admissible⟩

theorem Regular.pushLevel (h : s.Regular) : s.pushLevel.Regular :=
  ⟨⟨h.toLayered.pushLevel, h.filled⟩, h.admissible⟩

end Store

namespace Engine
variable {t : ValueType} {e e' : Engine t} {c a : ConstraintId} {p q : Propagator t} {s : Store t}
variable {rest : List ConstraintId} {x : VarId} {n : Narrowing t}

/-- A proper engine with values of the universe, where the posted propagators have subscribed. -/
structure Tracked (e : Engine t) : Prop extends e.Proper where
  admissible : e.store.Within t.Admissible
  subscribed : ∀ (c : ConstraintId) p, e.propagators[c]? = some p → p.Registered c e.store

/-- A tracked engine where every propagator waits that would fail or change a domain. -/
structure Covered (e : Engine t) : Prop extends e.Tracked where
  pending : ∀ (c : ConstraintId) p, e.propagators[c]? = some p → ¬p.Settled e.store →
    c ∈ e.store.woken.waiting

def AllSettled (e : Engine t) : Prop := ∀ p ∈ e.propagators, p.Settled e.store

/-- Running any propagator succeeds and changes nothing at all. -/
def Quiet (e : Engine t) : Prop := ∀ p ∈ e.propagators, p.propagate e.store = .done e.store ()

/-- A propagator is settled, or it waits. -/
def Attended (s : Store t) (c : ConstraintId) (p : Propagator t) : Prop :=
  p.Settled s ∨ c ∈ s.woken.waiting

/-- A propagator has been posted at the root and run for the first time. -/
structure FirstRun (e : Engine t) (p : Propagator t) (e₁ : Engine t) : Prop where
  root : e₁.store.level = 0
  covered : e₁.Covered
  propagators : e₁.propagators = e.propagators ++ [p]
  shrunk : ∃ s, Store.Enrolled e.propagators.length e.store s ∧ s.Shrunk e₁.store

/-- Turns of the loop have emptied the queue; more runs may be noted that changed nothing. -/
def Settles (e e' : Engine t) : Prop :=
  ∃ e₁ runs, e.Runs e₁ ∧ e₁.store.woken.waiting = [] ∧ e' = { e₁ with runs := runs }

theorem Tracked.regular (h : e.Tracked) : e.store.Regular := ⟨h.wellFormed, h.admissible⟩

theorem Covered.attended (h : e.Covered) (hp : e.propagators[c]? = some p) :
    Attended e.store c p := by
  by_cases hset : p.Settled e.store
  · exact .inl hset
  · exact .inr (h.pending c p hp hset)

theorem Tracked.covered (h : e.Tracked)
    (hatt : ∀ (c : ConstraintId) p, e.propagators[c]? = some p → Attended e.store c p) :
    e.Covered :=
  ⟨h, fun c p hp hset => (hatt c p hp).resolve_left hset⟩

theorem Tracked.shrunk (h : e.Tracked) (hs : e.store.Shrunk s) (runs : List ConstraintId) :
    ({ e with store := s, runs := runs } : Engine t).Tracked where
  toProper := h.toProper.shrunk hs runs
  admissible := hs.tighter.within h.admissible
  subscribed := fun a p hp => (h.subscribed a p hp).tighter hs.tighter

theorem Tracked.popped (h : e.Tracked) (hwait : e.store.woken.waiting = c :: rest) :
    e.popped.Tracked where
  toProper := h.toProper.popped hwait
  admissible := h.admissible
  subscribed := h.subscribed

theorem Tracked.forgetWoken (h : e.Tracked) : e.forgetWoken.Tracked where
  toProper := h.toProper.forgetWoken
  admissible := h.admissible
  subscribed := h.subscribed

theorem Tracked.pushLevel (h : e.Tracked) : e.pushLevel.Tracked where
  wellFormed := h.regular.pushLevel.toWellFormed
  builtin := h.builtin
  has := h.has
  queued := h.queued
  registered := h.registered
  admissible := h.admissible
  subscribed := h.subscribed

theorem Tracked.posted (h : e.Tracked) (hp : p.Builtin) (hx : e.store.Has p.vars)
    (hs : Store.Enrolled e.propagators.length e.store s)
    (hreg : p.Registered e.propagators.length s) : (e.posted p s).Tracked where
  toProper := h.toProper.posted hp hx hs
  admissible := Store.within_of_domains hs.domains h.admissible
  subscribed := by
    intro a q hq
    rcases posted_cases hq with hq | ⟨rfl, rfl⟩
    · exact fun subscription hmem => hs.subscribed _ _ _ (h.subscribed a q hq subscription hmem)
    · exact hreg

theorem AllSettled.covered (h : e.AllSettled) (htracked : e.Tracked) : e.Covered :=
  htracked.covered fun _ p hp => .inl (h p (List.mem_of_getElem? hp))

theorem Covered.noted (h : e.Covered) (runs : List ConstraintId) :
    ({ e with runs := runs } : Engine t).Covered :=
  ⟨⟨⟨h.wellFormed, h.builtin, h.has, h.queued, h.registered⟩, h.admissible, h.subscribed⟩,
    h.pending⟩

theorem Covered.allSettled (h : e.Covered) (hwait : e.store.woken.waiting = []) :
    e.AllSettled := by
  intro p hp
  obtain ⟨c, hc⟩ := List.getElem?_of_mem hp
  rcases h.attended hc with hset | hqueued
  · exact hset
  · rw [hwait] at hqueued
    cases hqueued

theorem Settles.waiting (hs : e.Settles e') : e'.store.woken.waiting = [] := by
  obtain ⟨e₁, runs, -, hwait, rfl⟩ := hs
  exact hwait

theorem Settles.propagators (hs : e.Settles e') : e'.propagators = e.propagators := by
  obtain ⟨e₁, runs, hruns, -, rfl⟩ := hs
  exact hruns.same.1

theorem recheck_cons (hwait : e.store.woken.waiting = [])
    (hout : p.propagate e.store = .done e.store ()) (c : ConstraintId)
    (ps : List (Propagator t)) :
    recheck true e c (p :: ps) = recheck true { e with runs := c :: e.runs } (c + 1) ps := by
  have hwoken := WakeQueue.eq_empty hwait
  have hsame : (e.ran c e.store).forgetWoken = { e with runs := c :: e.runs } := by
    simp only [ran, forgetWoken, withStore, Store.forgetWoken, ← hwoken]
  have hempty : e.store.woken.isEmpty = true := by
    rw [hwoken]
    rfl
  rw [← hsame]
  simp only [recheck, Engine.run, hout, Outcome.mapState, Outcome.resume, Option.isSome_some,
    hempty, Bool.and_self]
  rfl

theorem Quiet.recheck (h : e.Quiet) (hwait : e.store.woken.waiting = [])
    {ps : List (Propagator t)} (hps : ∀ p ∈ ps, p ∈ e.propagators) (c : ConstraintId) :
    ∃ runs, recheck true e c ps = .done { e with runs := runs } () := by
  induction ps generalizing e c with
  | nil => exact ⟨e.runs, rfl⟩
  | cons p ps ih =>
    rw [recheck_cons hwait (h p (hps p List.mem_cons_self))]
    exact ih (e := { e with runs := c :: e.runs }) h hwait
      (fun q hq => hps q (List.mem_cons_of_mem _ hq)) (c + 1)

variable [t.Lawful]

theorem Tracked.attended_shrunk (h : e.Tracked) (hp : e.propagators[c]? = some p)
    (hs : e.store.Shrunk s) (hatt : Attended e.store c p) : Attended s c p := by
  have hbuiltin := h.builtin p (List.mem_of_getElem? hp)
  induction hs with
  | refl => exact hatt
  | tail hrun hstep ih =>
    have hrun : e.store.Shrunk _ := hrun
    rcases ih with hset | hc
    · have hreg := (h.subscribed c p hp).tighter hrun.tighter
      exact hbuiltin.settled_or_woken (hrun.regular h.regular) hreg hstep hset
    · exact .inr (hstep.keeps_queued hc)

/-- A propagator is run while all others are attended to: then it is attended to as well. -/
theorem Tracked.run_covered (h : e.Tracked) (hp : e.propagators[c]? = some p)
    (hothers : ∀ (a : ConstraintId) q, e.propagators[a]? = some q → a ≠ c →
      Attended e.store a q) (hout : p.propagate e.store = .done s ()) : (e.ran c s).Covered := by
  have hs := h.toProper.steady.run_shrunk hp hout
  refine Tracked.covered (h.shrunk hs _) fun a q hq => ?_
  by_cases hac : a = c
  · subst hac
    obtain rfl : p = q := Option.some_inj.mp (hp.symm.trans hq)
    have hbuiltin := h.builtin p (List.mem_of_getElem? hp)
    exact hbuiltin.settled_after h.regular (h.subscribed a p hp) hout
  · exact h.attended_shrunk hq hs (hothers a q hq hac)

theorem Covered.popped (h : e.Covered) (hwait : e.store.woken.waiting = c :: rest)
    (hq : e.propagators[a]? = some q) (hac : a ≠ c) : Attended e.popped.store a q := by
  rcases h.attended hq with hset | ha
  · have hmem := List.mem_of_getElem? hq
    exact .inl ((h.builtin q hmem).settled_of_domains h.regular (h.regular.withWoken _)
      (h.has q hmem) (h.has q hmem) rfl hset)
  · rw [hwait] at ha
    rw [Attended, popped_waiting hwait]
    exact .inr ((List.mem_cons.mp ha).resolve_left hac)

theorem Iterates.covered (hi : e.Iterates e') (h : e.Covered) : e'.Covered := by
  obtain ⟨c, rest, p, s, hwait, hp, hout⟩ := hi
  exact (h.toTracked.popped hwait).run_covered hp (fun a q hq hac => h.popped hwait hq hac) hout

theorem Runs.covered (hr : e.Runs e') (h : e.Covered) : e'.Covered := by
  induction hr with
  | refl => exact h
  | tail _ hi ih => exact hi.covered ih

theorem Covered.shrunk (h : e.Covered) (hs : e.store.Shrunk s) : (e.withStore s).Covered :=
  Tracked.covered (h.toTracked.shrunk hs _) fun _ _ hp => h.attended_shrunk hp hs (h.attended hp)

theorem Covered.narrow (h : e.Covered) (x : VarId) (hn : n.Proper) :
    (e.store.narrow x n).Leaves fun s => (e.withStore s).Covered :=
  (Store.narrow_shrunk h.wellFormed x hn (h.regular.room x n)).imp fun _ hs => h.shrunk hs

theorem Tracked.attended_of_domains (h : e.Tracked) (hp : e.propagators[c]? = some p)
    (hwf : s.WellFormed) (hdom : s.domains = e.store.domains) (hwoken : s.woken = e.store.woken)
    (hatt : Attended e.store c p) : Attended s c p := by
  have hmem := List.mem_of_getElem? hp
  rcases hatt with hset | hc
  · exact .inl ((h.builtin p hmem).settled_of_domains h.regular (h.regular.of_domains hwf hdom)
      (h.has p hmem) (Store.has_of_domains hdom (h.has p hmem)) hdom hset)
  · exact .inr (hwoken ▸ hc)

theorem Covered.pushLevel (h : e.Covered) : e.pushLevel.Covered := by
  have htracked := h.toTracked.pushLevel
  exact htracked.covered fun _ _ hp =>
    h.attended_of_domains hp htracked.wellFormed rfl rfl (h.attended hp)

/-! ### Fixed points -/

theorem Proper.quiet (h : e.Proper) (hset : e.AllSettled) : e.Quiet := fun p hp =>
  ((h.builtin p hp).settled_iff h.wellFormed (h.has p hp)).mp (hset p hp)

theorem Settles.covered (hs : e.Settles e') (h : e.Covered) : e'.Covered := by
  obtain ⟨e₁, runs, hruns, -, rfl⟩ := hs
  exact (hruns.covered h).noted runs

theorem Settles.allSettled (hs : e.Settles e') (h : e.Covered) : e'.AllSettled :=
  (hs.covered h).allSettled hs.waiting

theorem Settles.quiet (hs : e.Settles e') (h : e.Covered) : e'.Quiet :=
  (hs.covered h).quiet (hs.allSettled h)

theorem Settles.level (hs : e.Settles e') (h : e.Proper) : e'.store.level = e.store.level := by
  obtain ⟨e₁, runs, hruns, -, rfl⟩ := hs
  exact hruns.level h

/-- Propagation of a covered engine ends at a common fixed point, unless it fails. The check of
fixed points has nothing to find. -/
theorem Covered.propagate_ends (h : e.Covered) :
    e.propagate.Ends (fun e' _ => e.Settles e') e.RunsInto := by
  have hdrains := h.toProper.drain_ends h.regular.negatable
  refine hdrains.andThen (fun e₁ _ ⟨hruns, hwait⟩ => ?_) fun _ hinto => hinto
  have h₁ := hruns.covered h
  split
  · obtain ⟨runs, hdone⟩ := (h₁.quiet (h₁.allSettled hwait)).recheck hwait (fun p hp => hp) 0
    rw [hdone]
    exact ⟨e₁, runs, hruns, hwait, rfl⟩
  · exact ⟨e₁, e₁.runs, hruns, hwait, rfl⟩

theorem Covered.settles (h : e.Covered) (hout : e.propagate = .done e' ()) : e.Settles e' :=
  h.propagate_ends.done hout

theorem Tracked.runWoken_eq (h : e.Tracked) (hp : e.propagators[c]? = some p) :
    (∃ s, p.propagate e.store = .done s () ∧ e.runWoken c = .done (e.ran c s) ()) ∨
      ∃ s, p.propagate e.store = .emptied s ∧ e.runWoken c = .emptied (e.ran c s.forgetWoken) := by
  have hmem := List.mem_of_getElem? hp
  have hends := (h.builtin p hmem).ends h.wellFormed h.regular.negatable (h.has p hmem)
  simp only [runWoken, hp, run]
  cases hout : p.propagate e.store with
  | done s result => exact .inl ⟨s, rfl, rfl⟩
  | emptied s => exact .inr ⟨s, rfl, rfl⟩
  | fault cause => exact absurd hout (hends.ne_fault cause)

theorem Covered.post_first (h : e.Covered) (hroot : e.store.level = 0) (hp : p.Builtin)
    (hx : e.store.Has p.vars) :
    (e.post p).Ends (fun e' c => c = e.propagators.length ∧
      ∃ e₁, e.FirstRun p e₁ ∧ e₁.Settles e') fun _ => True := by
  -- A posted propagator is first run while all others are attended to.
  obtain ⟨s, henroll, hreg, hpost⟩ := h.toProper.post_eq hroot hp hx
  have htracked := h.toTracked.posted hp hx henroll hreg
  have hget := posted_getElem? e p s
  have hothers : ∀ (a : ConstraintId) q, (e.posted p s).propagators[a]? = some q →
      a ≠ e.propagators.length → Attended s a q := by
    intro a q hq hne
    have hq' := (posted_cases hq).resolve_right fun heq => hne heq.1
    exact h.attended_of_domains hq' (henroll.wellFormed h.wellFormed) henroll.domains
      henroll.woken (h.attended hq')
  rw [hpost]
  rcases htracked.runWoken_eq hget with ⟨s₁, hrun, heq⟩ | ⟨s₁, -, heq⟩
  · have hcovered := htracked.run_covered hget hothers hrun
    have hshrunk : s.Shrunk s₁ := htracked.steady.run_shrunk hget hrun
    have hlevel : s₁.level = 0 := by
      rw [hshrunk.tighter.level]
      exact henroll.level.trans hroot
    rw [heq]
    refine hcovered.propagate_ends.andThen (fun e₂ _ hsettles => ?_) fun _ _ => trivial
    exact ⟨rfl, _, ⟨hlevel, hcovered, rfl, s, henroll, hshrunk⟩, hsettles⟩
  · rw [heq]
    trivial

theorem Covered.post_ends (h : e.Covered) (hroot : e.store.level = 0) (hp : p.Builtin)
    (hx : e.store.Has p.vars) :
    (e.post p).Ends (fun e' c => c = e.propagators.length ∧
      ∃ e₁ : Engine t, e₁.store.level = 0 ∧ e₁.Covered ∧ e₁.Settles e') fun _ => True :=
  (h.post_first hroot hp hx).imp
    (fun _ _ ⟨hc, e₁, hfirst, hsettles⟩ => ⟨hc, e₁, hfirst.root, hfirst.covered, hsettles⟩)
    fun _ => id

theorem Covered.post (h : e.Covered) (hp : p.Builtin) (hout : e.post p = .done e' c) :
    c = e.propagators.length ∧
      ∃ e₁ : Engine t, e₁.store.level = 0 ∧ e₁.Covered ∧ e₁.Settles e' := by
  have hroot := post_root hout
  have hx : e.store.Has p.vars := by
    simp only [Engine.post, hroot, ne_eq, not_true_eq_false, if_false, hp.subscribe_eq] at hout
    cases hsub : Propagator.subscribeAll e.propagators.length p.subscriptions e.store with
    | done s result => exact Store.has_of_subscribeAll h.wellFormed hsub
    | emptied s => rw [hsub] at hout; cases hout
    | fault cause => rw [hsub] at hout; cases hout
  exact (h.post_ends hroot hp hx).done hout

/-- A covered engine stays covered under narrowing, entering a level, posting and each turn of the
loop. So when propagation or posting succeeds, all propagators are at a common fixed point, and
the check of that leaves the store as it is and never fails. -/
theorem covered_until_quiet (h : e.Covered) :
    (∀ x n, n.Proper → (e.store.narrow x n).Leaves fun s => (e.withStore s).Covered) ∧
      e.pushLevel.Covered ∧
      (∀ c s, e.store.popWoken = (some c, s) →
        ((e.withStore s).runWoken c).Ends (fun e' _ => e'.Covered) fun _ => True) ∧
      (∀ p, p.Builtin →
        (∀ e' c, e.post p = .done e' c →
          e'.Covered ∧ e'.Quiet ∧ e'.store.woken.waiting = []) ∧
        (e.store.level = 0 → e.store.Has p.vars → ∀ cause, e.post p ≠ .fault cause)) ∧
      (e.propagate.Ends (fun e' _ => e'.Covered ∧ e'.Quiet ∧ e'.store.woken.waiting = [])
        fun _ => True) ∧
      (e.store.woken.waiting = [] →
        ∃ runs, recheck true e 0 e.propagators = .done { e with runs := runs } ()) := by
  refine ⟨fun x n hn => h.narrow x hn, h.pushLevel, ?_, fun p hp => ⟨?_, ?_⟩, ?_, ?_⟩
  · intro c s hpop
    simp only [Store.popWoken, WakeQueue.pop?] at hpop
    cases hwait : e.store.woken.waiting with
    | nil => rw [hwait] at hpop; cases hpop
    | cons a rest =>
      rw [hwait] at hpop
      cases hpop
      have hends := h.toProper.runWoken_ends h.regular.negatable hwait
      exact hends.imp (fun _ _ hi => hi.covered h) fun _ _ => trivial
  · intro e' c hout
    obtain ⟨-, e₁, -, h₁, hsettles⟩ := h.post hp hout
    exact ⟨hsettles.covered h₁, hsettles.quiet h₁, hsettles.waiting⟩
  · intro hroot hx cause
    exact (h.post_ends hroot hp hx).ne_fault cause
  · refine h.propagate_ends.imp (fun e' _ hsettles => ?_) fun _ _ => trivial
    exact ⟨hsettles.covered h, hsettles.quiet h, hsettles.waiting⟩
  · intro hwait
    exact (h.quiet (h.allSettled hwait)).recheck hwait (fun p hp => hp) 0

/-- An engine at the root, all of whose propagators wait. -/
def waitingEngine : Engine .int32 where
  store := {
    vars := [
      ⟨0, ⟨.intervals [⟨0, 10⟩], 0, ⟨[], [0, 1, 3], []⟩, .empty, false⟩, []⟩,
      ⟨1, ⟨.sparse [2, 3, 5], 0, ⟨[2], [0], []⟩, .empty, false⟩, []⟩,
      ⟨2, ⟨.intervals [⟨0, 12⟩, ⟨20, 40⟩], 0, ⟨[], [0, 3], []⟩, .empty, false⟩, []⟩]
    level := 0
    trail := []
    woken := WakeQueue.empty.enqueueAll [2, 0, 3, 1]
    names := .empty
    options := .standard }
  propagators := [.times 0 1 2, .lessThan 0 8, .notEqual 1 3, .plus 0 0 2]
  checked := true
  runs := []

theorem waitingEngine_admissible : waitingEngine.store.Within ValueType.int32.Admissible := by
  simp only [waitingEngine, Store.Within, Variable.values, List.forall_mem_cons,
    Domain.forall_mem_intervals, Domain.forall_mem_sparse, Interval.mem_mk,
    ValueType.admissible_int32]
  and_intros <;> grind

theorem waitingEngine_regular : waitingEngine.store.Regular := by
  refine Store.regular_root rfl rfl ?_ waitingEngine_admissible
  simp [waitingEngine, Variable.stamp, Variable.values, Domain.Consistent, Runs.Consistent,
    Points.Consistent, Domain.isEmpty]

theorem waitingEngine_covered : waitingEngine.Covered where
  wellFormed := waitingEngine_regular.toWellFormed
  builtin := by simp [waitingEngine, Propagator.Builtin]
  has := by decide
  queued := by decide
  registered := by decide
  admissible := waitingEngine_regular.admissible
  subscribed := Store.forall_getElem? (by decide)
  pending := Store.forall_getElem? fun i _ =>
    (by decide : ∀ i : Fin waitingEngine.propagators.length,
      i.val ∈ waitingEngine.store.woken.waiting) i

theorem covered_until_quiet_waiting : waitingEngine.Covered ∧ waitingEngine.pushLevel.Covered ∧
    (∃ e', waitingEngine.propagate = .done e' () ∧ e'.Covered ∧ e'.Quiet) ∧
      ∃ e', waitingEngine.post (.cumulative [⟨0, 1, 1⟩, ⟨2, 1, 1⟩] 6) = .done e' 4 ∧ e'.Quiet := by
  obtain ⟨-, hpush, -, hpost, hends, -⟩ := covered_until_quiet waitingEngine_covered
  refine ⟨waitingEngine_covered, hpush, ?_, ?_⟩
  · have hdone : (match waitingEngine.propagate with | .done _ _ => true | _ => false) = true := by
      decide +kernel
    cases hout : waitingEngine.propagate with
    | done e' result => rw [hout] at hends; exact ⟨e', rfl, hends.1, hends.2.1⟩
    | emptied => rw [hout] at hdone; cases hdone
    | fault => rw [hout] at hdone; cases hdone
  · have hdone : (match waitingEngine.post (.cumulative [⟨0, 1, 1⟩, ⟨2, 1, 1⟩] 6) with
        | .done _ c => c == 4 | _ => false) = true := by
      decide +kernel
    cases hout : waitingEngine.post (.cumulative [⟨0, 1, 1⟩, ⟨2, 1, 1⟩] 6) with
    | done e' c =>
      rw [hout] at hdone
      obtain rfl : c = 4 := by simpa using hdone
      exact ⟨e', rfl, ((hpost (.cumulative [⟨0, 1, 1⟩, ⟨2, 1, 1⟩] 6) trivial).1 e' 4 hout).2.1⟩
    | emptied => rw [hout] at hdone; cases hdone
    | fault => rw [hout] at hdone; cases hdone

end Engine
end FiniteDomains
