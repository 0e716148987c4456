import FiniteDomains.Proofs.Propagator.Settled

/-! The loop of an engine as a relation: each turn takes the first woken propagator from the queue
and runs it. A turn takes a value from some variable, or else a constraint from the queue, so the
loop ends before the bound on its turns is reached. -/
namespace FiniteDomains.Engine
variable {t : ValueType} {e e' e'' : Engine t} {c : ConstraintId} {rest : List ConstraintId}
variable {p : Propagator t} {size : Nat}

/-- Only the propagators of the library are posted, for variables that exist, and no other ids are
waiting or registered than those of posted propagators. -/
structure Proper (e : Engine t) : Prop where
  wellFormed : e.store.WellFormed
  builtin : ∀ p ∈ e.propagators, p.Builtin
  has : ∀ p ∈ e.propagators, e.store.Has p.vars
  queued : ∀ c ∈ e.store.woken.waiting, c < e.propagators.length
  registered : ∀ c ∈ e.store.registered, c < e.propagators.length

/-- Only the propagators of the library are posted, for variables that exist. Any ids may be waiting
or registered. -/
structure Steady (e : Engine t) : Prop where
  wellFormed : e.store.WellFormed
  builtin : ∀ p ∈ e.propagators, p.Builtin
  has : ∀ p ∈ e.propagators, e.store.Has p.vars

theorem Proper.steady (h : e.Proper) : e.Steady := ⟨h.wellFormed, h.builtin, h.has⟩

def popped (e : Engine t) : Engine t :=
  e.withStore { e.store with woken := e.store.woken.dropFirst }

theorem popped_waiting (hwait : e.store.woken.waiting = c :: rest) :
    e.popped.store.woken.waiting = rest := by
  have hdrop : e.popped.store.woken.waiting = e.store.woken.waiting.tail :=
    WakeQueue.waiting_dropFirst _
  rw [hdrop, hwait, List.tail_cons]

def ran (e : Engine t) (c : ConstraintId) (s : Store t) : Engine t :=
  { e with store := s, runs := c :: e.runs }

/-- A turn of the loop that succeeds. -/
inductive Iterates (e : Engine t) : Engine t → Prop
  | run (c : ConstraintId) (rest : List ConstraintId) (p : Propagator t) (s : Store t) :
      e.store.woken.waiting = c :: rest → e.propagators[c]? = some p →
      p.propagate e.popped.store = .done s () → Iterates e (e.ran c s)

inductive Breaks (e : Engine t) : Engine t → Prop
  | run (c : ConstraintId) (rest : List ConstraintId) (p : Propagator t) (s : Store t) :
      e.store.woken.waiting = c :: rest → e.propagators[c]? = some p →
      p.propagate e.popped.store = .emptied s → Breaks e (e.ran c s.forgetWoken)

/-- A measure of what is left to do while the queue is no longer than `size`. -/
def remaining (e : Engine t) (size : Nat) : Nat :=
  e.store.cardinality * (size + 1) + e.store.woken.length

theorem Steady.popped (h : e.Steady) : e.popped.Steady :=
  ⟨⟨h.wellFormed.toLayered.withWoken _, h.wellFormed.filled⟩, h.builtin, h.has⟩

theorem Proper.popped (h : e.Proper) (hwait : e.store.woken.waiting = c :: rest) :
    e.popped.Proper where
  wellFormed := ⟨h.wellFormed.toLayered.withWoken _, h.wellFormed.filled⟩
  builtin := h.builtin
  has := h.has
  queued := by
    intro a ha
    rw [popped_waiting hwait] at ha
    exact h.queued a (hwait ▸ List.mem_cons_of_mem _ ha)
  registered := h.registered

theorem Proper.forgetWoken (h : e.Proper) : e.forgetWoken.Proper where
  wellFormed := ⟨h.wellFormed.toLayered.withWoken _, h.wellFormed.filled⟩
  builtin := h.builtin
  has := h.has
  queued := fun _ ha => nomatch ha
  registered := h.registered

theorem Steady.shrunk {s : Store t} (h : e.Steady) (hs : e.store.Shrunk s)
    (runs : List ConstraintId) : ({ e with store := s, runs := runs } : Engine t).Steady :=
  ⟨hs.wellFormed h.wellFormed, h.builtin, fun p hp => hs.tighter.has (h.has p hp)⟩

theorem Proper.shrunk {s : Store t} (h : e.Proper) (hs : e.store.Shrunk s)
    (runs : List ConstraintId) : ({ e with store := s, runs := runs } : Engine t).Proper where
  wellFormed := hs.wellFormed h.wellFormed
  builtin := h.builtin
  has := fun p hp => hs.tighter.has (h.has p hp)
  queued := by
    intro a ha
    rcases hs.queued ha with ha | ha
    · exact h.queued a ha
    · exact h.registered a ha
  registered := by
    intro a ha
    have hreg : s.registered = e.store.registered := hs.tighter.registered
    exact h.registered a (hreg ▸ ha)

def Runs (e e' : Engine t) : Prop := Relation.ReflTransGen Iterates e e'

def RunsInto (e e' : Engine t) : Prop := ∃ e₁, Relation.ReflTransGen Iterates e e₁ ∧ e₁.Breaks e'

theorem Runs.same (hr : e.Runs e') :
    e'.propagators = e.propagators ∧ e'.checked = e.checked := by
  induction hr with
  | refl => exact ⟨rfl, rfl⟩
  | tail _ hi ih =>
    obtain ⟨c, rest, p, s, -, -, -⟩ := hi
    exact ih

theorem runBound_pos (e : Engine t) : 0 < e.runBound :=
  Nat.mul_pos (Nat.succ_pos _) (Nat.succ_pos _)

theorem drain_empty {fuel : Nat} (hwait : e.store.woken.waiting = []) (hfuel : 0 < fuel) :
    drain fuel e = .done e () := by
  cases fuel with
  | zero => exact absurd hfuel (Nat.lt_irrefl 0)
  | succ fuel =>
    simp only [drain, Store.popWoken, WakeQueue.pop?, hwait, List.head?_nil, Option.map_none]

/-- What the loop ends with: an empty queue, an empty domain, an id that no propagator has, or the
inverted ends of an interval, on a store with values that cannot be negated. -/
inductive Drained (e : Engine t) : Outcome (Engine t) Unit → Prop
  | done (e' : Engine t) : e.Runs e' → e'.store.woken.waiting = [] → Drained e (.done e' ())
  | emptied (e' : Engine t) : e.RunsInto e' → Drained e (.emptied e')
  | strayed (e' : Engine t) (c : ConstraintId) (rest : List ConstraintId) : e.Runs e' →
      e'.store.woken.waiting = c :: rest → e'.propagators[c]? = none →
      Drained e (.fault .noSuchEntry)
  | malformed (e' : Engine t) (cause : Fault) : e.Runs e' → cause.Malformed →
      ¬e'.store.Within t.Negatable → Drained e (.fault cause)

theorem Drained.head {outcome : Outcome (Engine t) Unit} (hi : e.Iterates e')
    (hd : e'.Drained outcome) : e.Drained outcome := by
  cases hd with
  | done e₁ hruns hwait => exact .done e₁ (hruns.head hi) hwait
  | emptied e₁ hinto =>
    obtain ⟨e₂, hruns, hbreaks⟩ := hinto
    exact .emptied e₁ ⟨e₂, hruns.head hi, hbreaks⟩
  | strayed e₁ c rest hruns hwait hnone => exact .strayed e₁ c rest (hruns.head hi) hwait hnone
  | malformed e₁ cause hruns hcause hneg => exact .malformed e₁ cause (hruns.head hi) hcause hneg

theorem remaining_lt_runBound (e : Engine t) : e.remaining e.store.wakeable < e.runBound := by
  have hlen := e.store.queueWithin_wakeable.length_le
  simp only [remaining, runBound, Nat.add_mul, Nat.one_mul]
  omega

variable [t.Lawful]

theorem Steady.run_shrunk (h : e.Steady) (hp : e.propagators[c]? = some p) {s : Store t}
    (hout : p.propagate e.store = .done s ()) : e.store.Shrunk s := by
  have hmem := List.mem_of_getElem? hp
  exact (h.builtin p hmem).shrunk h.wellFormed (h.has p hmem) hout

theorem Steady.runWoken_ends (h : e.Steady) (hwait : e.store.woken.waiting = c :: rest)
    (hp : e.propagators[c]? = some p) :
    (e.popped.runWoken c).EndsUnless
      (fun cause => cause.Malformed ∧ ¬e.store.Within t.Negatable)
      (fun e' _ => e.Iterates e') e.Breaks := by
  have hmem := List.mem_of_getElem? hp
  have hpopped : e.popped.propagators[c]? = some p := hp
  have hbuiltin := h.builtin p hmem
  have hunless := hbuiltin.ends_unless h.popped.wellFormed (h.popped.has p hmem)
  simp only [runWoken, hpopped, run]
  cases hout : p.propagate e.popped.store with
  | done s result => exact .run c rest p s hwait hp hout
  | emptied s => exact .run c rest p s hwait hp hout
  | fault cause =>
    refine ⟨(hunless.fault hout).malformed, fun hneg => ?_⟩
    have hends := hbuiltin.ends h.popped.wellFormed hneg (h.popped.has p hmem)
    exact hends.ne_fault cause hout

theorem Proper.runWoken_ends (h : e.Proper) (hneg : e.store.Within t.Negatable)
    (hwait : e.store.woken.waiting = c :: rest) :
    (e.popped.runWoken c).Ends (fun e' _ => e.Iterates e') e.Breaks := by
  have hlen : c < e.propagators.length := h.queued c (hwait ▸ List.mem_cons_self)
  have hends := h.steady.runWoken_ends hwait (List.getElem?_eq_getElem hlen)
  generalize e.popped.runWoken c = outcome at hends
  cases outcome with
  | done e' result => exact hends
  | emptied e' => exact hends
  | fault cause => exact hends.2 hneg

theorem Iterates.shrunk (hi : e.Iterates e') (h : e.Steady) :
    ∃ c rest, e.store.woken.waiting = c :: rest ∧
      e.popped.store.Shrunk e'.store := by
  obtain ⟨c, rest, p, s, hwait, hp, hout⟩ := hi
  exact ⟨c, rest, hwait, h.popped.run_shrunk hp hout⟩

theorem Iterates.steady (hi : e.Iterates e') (h : e.Steady) : e'.Steady := by
  obtain ⟨c, rest, p, s, -, hp, hout⟩ := hi
  exact h.popped.shrunk (h.popped.run_shrunk hp hout) _

theorem Iterates.proper (hi : e.Iterates e') (h : e.Proper) : e'.Proper := by
  obtain ⟨c, rest, p, s, hwait, hp, hout⟩ := hi
  have hpopped := h.popped hwait
  exact hpopped.shrunk (hpopped.steady.run_shrunk hp hout) _

theorem Iterates.queueWithin (hi : e.Iterates e') (h : e.Steady) (hq : e.store.QueueWithin size) :
    e'.store.QueueWithin size := by
  obtain ⟨c, rest, hwait, hs⟩ := hi.shrunk h
  exact hs.queueWithin (hq.popped hwait)

theorem Iterates.remaining_lt (hi : e.Iterates e') (h : e.Steady)
    (hq : e.store.QueueWithin size) : e'.remaining size < e.remaining size := by
  have hlen := (hi.queueWithin h hq).length_le
  obtain ⟨c, rest, hwait, hs⟩ := hi.shrunk h
  have hold : e.store.woken.length = rest.length + 1 := by
    rw [WakeQueue.length_eq, hwait, List.length_cons]
  simp only [remaining]
  -- either nothing has changed and the queue is shorter, or a value is gone, which counts for more
  -- than the longest queue
  rcases hs.eq_or_cardinality_lt h.popped.wellFormed with heq | hlt
  · rw [heq, hold, e.popped.store.woken.length_eq, popped_waiting hwait]
    exact Nat.lt_succ_self _
  · have hcard : e'.store.cardinality + 1 ≤ e.store.cardinality := hlt
    have hmul := Nat.mul_le_mul_right (size + 1) hcard
    rw [Nat.add_mul, Nat.one_mul] at hmul
    omega

/-! ### The whole loop -/

theorem Steady.drain_drained {fuel : Nat} (h : e.Steady) (hq : e.store.QueueWithin size)
    (hfuel : e.remaining size < fuel) : e.Drained (drain fuel e) := by
  induction fuel generalizing e with
  | zero => omega
  | succ fuel ih =>
    simp only [drain, Store.popWoken, WakeQueue.pop?]
    cases hwait : e.store.woken.waiting with
    | nil => exact .done e .refl hwait
    | cons c rest =>
      change e.Drained ((e.popped.runWoken c).andThen fun e _ => drain fuel e)
      cases hp : e.propagators[c]? with
      | none =>
        have hnone : e.popped.propagators[c]? = none := hp
        have hfault : e.popped.runWoken c = .fault .noSuchEntry := by
          simp only [runWoken, hnone]
        rw [hfault]
        exact .strayed e c rest .refl hwait hp
      | some p =>
        have hends := h.runWoken_ends hwait hp
        cases hout : e.popped.runWoken c with
        | done e₁ result =>
          have hi := hends.done hout
          have hlt := hi.remaining_lt h hq
          exact (ih (hi.steady h) (hi.queueWithin h hq) (by omega)).head hi
        | emptied e₁ => exact .emptied e₁ ⟨e, .refl, hends.emptied hout⟩
        | fault cause =>
          obtain ⟨hcause, hneg⟩ := hends.fault hout
          exact .malformed e cause .refl hcause hneg

/-- The loop ends before its bound is reached. -/
theorem Steady.drained (h : e.Steady) : e.Drained (drain e.runBound e) :=
  h.drain_drained e.store.queueWithin_wakeable e.remaining_lt_runBound

theorem Runs.steady (hr : e.Runs e') (h : e.Steady) : e'.Steady := by
  induction hr with
  | refl => exact h
  | tail _ hi ih => exact hi.steady ih

theorem Runs.within {P : Int → Prop} (hr : e.Runs e') (h : e.Steady) (hP : e.store.Within P) :
    e'.store.Within P := by
  induction hr with
  | refl => exact hP
  | tail hrun hi ih =>
    obtain ⟨c, rest, -, hs⟩ := hi.shrunk (Runs.steady hrun h)
    exact hs.tighter.within ih

theorem Runs.proper (hr : e.Runs e') (h : e.Proper) : e'.Proper := by
  induction hr with
  | refl => exact h
  | tail _ hi ih => exact hi.proper ih

/-- The loop of an engine with no other ids than those of propagators, and with values that can be
negated, ends with an empty queue or with an empty domain. -/
theorem Proper.drain_ends (h : e.Proper) (hneg : e.store.Within t.Negatable) :
    (drain e.runBound e).Ends (fun e' _ => e.Runs e' ∧ e'.store.woken.waiting = [])
      e.RunsInto := by
  have hdrained := h.steady.drained
  generalize drain e.runBound e = outcome at hdrained
  cases hdrained with
  | done e' hruns hwait => exact ⟨hruns, hwait⟩
  | emptied e' hinto => exact hinto
  | strayed e' c rest hruns hwait hnone =>
    have hlt := (Runs.proper hruns h).queued c (hwait ▸ List.mem_cons_self)
    rw [List.getElem?_eq_getElem hlt] at hnone
    cases hnone
  | malformed e' cause hruns _ hnot => exact absurd (Runs.within hruns h.steady hneg) hnot

theorem Runs.level (hr : e.Runs e') (h : e.Proper) : e'.store.level = e.store.level := by
  induction hr with
  | refl => rfl
  | tail hrun hi ih =>
    obtain ⟨c, rest, -, hs⟩ := hi.shrunk (Runs.proper hrun h).steady
    rw [hs.tighter.level]
    exact ih

end FiniteDomains.Engine
