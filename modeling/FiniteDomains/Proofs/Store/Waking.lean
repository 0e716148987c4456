import FiniteDomains.Proofs.Store.Narrowing
import FiniteDomains.Proofs.Wakeup.Queue
import Mathlib.Data.List.Perm.Subperm

/-! The queue of a store: what changes put on it, and how long it can become. -/
namespace FiniteDomains

namespace Store
variable {t : ValueType} {s s' : Store t} {x : VarId} {v : Variable t} {d : Domain t}
variable {c : ConstraintId} {trigger : Trigger}

def registered (s : Store t) : List ConstraintId := s.vars.flatMap Variable.registered

theorem wakeable_eq (s : Store t) : s.wakeable = s.registered.length + s.woken.length := by
  simp only [wakeable, registered]
  induction s.vars with
  | nil => simp
  | cons v vs ih =>
    rw [List.foldr_cons, ih, List.flatMap_cons, List.length_append, v.registered_length]
    omega

theorem Tighter.registered (h : s.Tighter s') : s'.registered = s.registered := by
  have hmap : s'.vars.map Variable.registered = s.vars.map Variable.registered := by
    apply List.ext_getElem?
    intro x
    rw [List.getElem?_map, List.getElem?_map]
    cases hv : s.vars[x]? with
    | none =>
      have hlen := List.getElem?_eq_none_iff.mp hv
      rw [List.getElem?_eq_none (h.length ▸ hlen)]
    | some v =>
      obtain ⟨v', hv', hmodel, hsearch, -⟩ := h.var x v hv
      rw [hv']
      simp [Variable.registered, hmodel, hsearch]
  simp only [Store.registered, List.flatMap_def, hmap]

theorem mem_registered (hv : s.vars[x]? = some v) (hc : c ∈ v.registered) : c ∈ s.registered :=
  List.mem_flatMap.mpr ⟨v, List.mem_of_getElem? hv, hc⟩

/-- A constraint of the model waits for a change of a variable. -/
def Subscribed (s : Store t) (c : ConstraintId) (x : VarId) (trigger : Trigger) : Prop :=
  ∃ v, s.vars[x]? = some v ∧ c ∈ v.current.model.waiting trigger

theorem subscribed_iff : s.Subscribed c x trigger ↔
    ((s.vars[x]?).any fun v => (v.current.model.waiting trigger).contains c) = true := by
  simp [Subscribed, Option.any_eq_true]

instance (s : Store t) (c : ConstraintId) (x : VarId) (trigger : Trigger) :
    Decidable (s.Subscribed c x trigger) := decidable_of_iff _ subscribed_iff.symm

theorem Tighter.subscribed (h : s.Tighter s') (hc : s.Subscribed c x trigger) :
    s'.Subscribed c x trigger := by
  obtain ⟨v, hv, hmem⟩ := hc
  obtain ⟨v', hv', hmodel, -, -⟩ := h.var x v hv
  exact ⟨v', hv', by rwa [hmodel]⟩

theorem Shrinks.queued (hs : s.Shrinks s') (hc : c ∈ s'.woken.waiting) :
    c ∈ s.woken.waiting ∨ c ∈ s.registered := by
  obtain ⟨x, v, d, hv, hd⟩ := hs
  rcases WakeQueue.mem_enqueueAll.mp hc with hc | hc
  · exact .inl hc
  · exact .inr (mem_registered hv (Variable.toWake_registered hc))

theorem Shrinks.keeps_queued (hs : s.Shrinks s') (hc : c ∈ s.woken.waiting) :
    c ∈ s'.woken.waiting := by
  obtain ⟨x, v, d, hv, hd⟩ := hs
  exact WakeQueue.mem_enqueueAll.mpr (.inl hc)

theorem Shrunk.queued (hs : s.Shrunk s') (hc : c ∈ s'.woken.waiting) :
    c ∈ s.woken.waiting ∨ c ∈ s.registered := by
  induction hs with
  | refl => exact .inl hc
  | tail hrun hstep ih =>
    rcases hstep.queued hc with hc | hc
    · exact ih hc
    · rw [(Shrunk.tighter hrun).registered] at hc
      exact .inr hc

theorem wakes_on_bound (hv : s.vars[x]? = some v) (hd : v.Part d)
    (hc : s.Subscribed c x .bound) (hends : d.min? ≠ v.values.min? ∨ d.max? ≠ v.values.max?) :
    c ∈ (s.narrowed x v d).woken.waiting := by
  obtain ⟨u, hu, hmem⟩ := hc
  obtain rfl : u = v := Option.some_inj.mp (hu.symm.trans hv)
  have hbound : Trigger.bound ∈ (Change.between u.values d).triggers := by
    by_contra hout
    obtain ⟨hmin, hmax⟩ := Change.ends_of_not_bound hd.size_ne hout
    rcases hends with hne | hne
    · exact hne hmin
    · exact hne hmax
  refine WakeQueue.mem_enqueueAll.mpr (.inr ?_)
  simp only [Variable.toWake, List.mem_append, List.mem_flatMap]
  exact .inl ⟨.bound, hbound, hmem⟩

/-! ### The length of the queue -/

/-- What is left of an old queue is followed by constraints that have been woken since. -/
def QueueWithin (s : Store t) (size : Nat) : Prop :=
  ∃ old new, s.woken.waiting = old ++ new ∧ new.Nodup ∧ (∀ c ∈ new, c ∈ s.registered) ∧
    old.length + s.registered.length ≤ size

theorem queueWithin_wakeable (s : Store t) : s.QueueWithin s.wakeable := by
  refine ⟨s.woken.waiting, [], by simp, List.nodup_nil, by simp, ?_⟩
  rw [wakeable_eq, WakeQueue.length_eq]
  omega

theorem QueueWithin.length_le {size : Nat} (h : s.QueueWithin size) : s.woken.length ≤ size := by
  obtain ⟨old, new, hwait, hnodup, hreg, hsize⟩ := h
  have hnew : new.length ≤ s.registered.length := (hnodup.subperm hreg).length_le
  rw [WakeQueue.length_eq, hwait, List.length_append]
  omega

theorem Shrinks.queueWithin {size : Nat} (hs : s.Shrinks s') (h : s.QueueWithin size) :
    s'.QueueWithin size := by
  obtain ⟨old, new, hwait, hnodup, hreg, hsize⟩ := h
  have htight := hs.tighter.registered
  obtain ⟨x, v, d, hv, hd⟩ := hs
  obtain ⟨more, hmore, hfresh, hmem⟩ :=
    WakeQueue.enqueueAll_waiting s.woken (v.toWake (.between v.values d))
  refine ⟨old, new ++ more, ?_, ?_, ?_, by rwa [htight]⟩
  · rw [← List.append_assoc, ← hwait]
    exact hmore
  · refine List.nodup_append.mpr ⟨hnodup, hfresh, ?_⟩
    rintro a ha b hb rfl
    have hout := ((hmem a).mp hb).2
    rw [hwait] at hout
    exact hout (List.mem_append_right _ ha)
  · intro c hc
    rw [htight]
    rcases List.mem_append.mp hc with hc | hc
    · exact hreg c hc
    · exact mem_registered hv (Variable.toWake_registered ((hmem c).mp hc).1)

theorem Shrunk.queueWithin {size : Nat} (hs : s.Shrunk s') (h : s.QueueWithin size) :
    s'.QueueWithin size := by
  induction hs with
  | refl => exact h
  | tail _ hstep ih => exact hstep.queueWithin ih

theorem QueueWithin.popped {size : Nat} (h : s.QueueWithin size) {rest : List ConstraintId}
    (hpop : s.woken.waiting = c :: rest) :
    ({ s with woken := s.woken.dropFirst } : Store t).QueueWithin size := by
  obtain ⟨old, new, hwait, hnodup, hreg, hsize⟩ := h
  have hrest : s.woken.dropFirst.waiting = rest := by rw [WakeQueue.waiting_dropFirst, hpop]; rfl
  rw [hpop] at hwait
  cases old with
  | nil =>
    cases new with
    | nil => cases hwait
    | cons b new =>
      cases hwait
      exact ⟨[], rest, hrest, hnodup.of_cons, fun a ha => hreg a (List.mem_cons_of_mem _ ha), hsize⟩
  | cons b old =>
    cases hwait
    refine ⟨old, new, hrest, hnodup, hreg, ?_⟩
    rw [List.length_cons] at hsize
    have hold : old.length + s.registered.length ≤ size := by omega
    exact hold

end Store
end FiniteDomains
