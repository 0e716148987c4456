import FiniteDomains.Proofs.Engine.Covered
import FiniteDomains.Proofs.Engine.Retention
import FiniteDomains.Proofs.Propagator.Soundness

/-! An engine loses no solution: an assignment that satisfies all posted constraints and that the
store admits is admitted after every turn of the loop, so no turn can empty a domain. -/
namespace FiniteDomains.Engine
variable {t : ValueType} {e e' : Engine t} {p : Propagator t}
variable {σ : VarId → Int}

/-- An engine of arithmetic propagators over balanced values, with an assignment that satisfies
them all. -/
structure Solvable (e : Engine t) (σ : VarId → Int) : Prop extends e.Proper where
  arithmetic : ∀ p ∈ e.propagators, p.Arithmetic
  holds : ∀ p ∈ e.propagators, p.Holds σ
  balanced : e.store.Within t.Balanced
  admits : e.store.Admits σ

/-- The values are balanced, and those of an assignment are among them. -/
def Possible (σ : VarId → Int) (s : Store t) : Prop := s.Within t.Balanced ∧ s.Admits σ

theorem Retaining.feasible (h : e.Retaining (Possible σ)) : e.store.Feasible σ :=
  ⟨h.wellFormed, h.holds.1, h.holds.2⟩

variable [t.Lawful]

theorem retainedBy_possible {ps : List (Propagator t)}
    (hps : ∀ p ∈ ps, p.Arithmetic ∧ p.Holds σ) : RetainedBy ps (Possible σ) where
  admissible := fun _ hs v hv w hw => (hs.1 v hv w hw).admissible
  of_domains := fun _ _ hdom hs =>
    ⟨Store.within_of_domains hdom hs.1, Store.admits_of_domains hdom hs.2⟩
  run := by
    intro p hp s hwf hx hs
    have hfeasible : s.Feasible σ := ⟨hwf, hs.1, hs.2⟩
    have hadm : ∀ x ∈ p.vars, t.Admissible (σ x) := by
      intro x hmem
      obtain ⟨v, hv⟩ := hx x hmem
      exact (hfeasible.balanced_at hv).admissible
    obtain ⟨harith, hholds⟩ := hps p hp
    obtain ⟨s', r, hout, hs', -, -⟩ := harith.retains hholds hadm s hfeasible hx
    exact ⟨s', hout, hs'.balanced, hs'.admits⟩

theorem Solvable.retaining (h : e.Solvable σ) : e.Retaining (Possible σ) :=
  ⟨h.toProper, retainedBy_possible fun p hp => ⟨h.arithmetic p hp, h.holds p hp⟩, h.balanced,
    h.admits⟩

theorem Solvable.propagate (h : e.Solvable σ) :
    (∃ e', e.propagate = .done e' () ∧ e'.store.Feasible σ) ∨
      e.checked = true ∧ e.propagate = .fault .notAtFixedPoint :=
  h.retaining.propagate.imp_left fun ⟨e', hdone, h'⟩ => ⟨e', hdone, h'.feasible⟩

theorem Solvable.post (h : e.Solvable σ) (hroot : e.store.level = 0) (hp : p.Arithmetic)
    (hσ : p.Holds σ) (hx : e.store.Has p.vars) :
    (∃ e', e.post p = .done e' e.propagators.length ∧ e'.store.Feasible σ) ∨
      e.checked = true ∧ e.post p = .fault .notAtFixedPoint := by
  have hret : RetainedBy (e.propagators ++ [p]) (Possible σ) := by
    refine retainedBy_possible fun q hq => ?_
    rcases List.mem_append.mp hq with hq | hq
    · exact ⟨h.arithmetic q hq, h.holds q hq⟩
    · obtain rfl := List.mem_singleton.mp hq
      exact ⟨hp, hσ⟩
  exact (h.toProper.post_retains hret ⟨h.balanced, h.admits⟩ hroot hp.builtin hx).imp_left
    fun ⟨e', hdone, h'⟩ => ⟨e', hdone, h'.feasible⟩

/-- Propagation succeeds and keeps every assignment that satisfies the posted constraints, and so
does posting another constraint that it satisfies. Where fixed points are checked, the check can
stop this only if some propagator had something to do and did not wait. -/
theorem propagation_keeps_solutions (h : e.Solvable σ) :
    ((∃ e', e.propagate = .done e' () ∧ e'.store.Admits σ) ∨
      e.checked = true ∧ ¬e.Covered ∧ e.propagate = .fault .notAtFixedPoint) ∧
    ∀ p : Propagator t, p.Arithmetic → p.Holds σ → e.store.level = 0 → e.store.Has p.vars →
      (∃ e', e.post p = .done e' e.propagators.length ∧ e'.store.Admits σ) ∨
        e.checked = true ∧ ¬e.Covered ∧ e.post p = .fault .notAtFixedPoint := by
  constructor
  · rcases h.propagate with ⟨e', hdone, h'⟩ | ⟨hc, hfault⟩
    · exact .inl ⟨e', hdone, h'.admits⟩
    · exact .inr ⟨hc, fun hcov => hcov.propagate_ends.ne_fault _ hfault, hfault⟩
  · intro p hp hσ hroot hx
    rcases h.post hroot hp hσ hx with ⟨e', hdone, h'⟩ | ⟨hc, hfault⟩
    · exact .inl ⟨e', hdone, h'.admits⟩
    · refine .inr ⟨hc, fun hcov => ?_, hfault⟩
      exact (hcov.post_ends hroot hp.builtin hx).ne_fault _ hfault

def waitingSolution : VarId → Int
  | 0 => 4
  | 1 => 2
  | _ => 8

theorem waitingEngine_solvable : waitingEngine.Solvable waitingSolution where
  toProper := waitingEngine_covered.toProper
  arithmetic := by
    intro p hp
    simp only [waitingEngine, List.mem_cons, List.not_mem_nil, or_false] at hp
    rcases hp with rfl | rfl | rfl | rfl <;> trivial
  holds := by simp [waitingEngine, Propagator.Holds, waitingSolution]
  balanced := by
    simp only [waitingEngine, Store.Within, Variable.values, List.forall_mem_cons,
      Domain.forall_mem_intervals, Domain.forall_mem_sparse, Interval.mem_mk,
      ValueType.balanced_int32]
    and_intros <;> grind
  admits := Store.forall_getElem? (by decide)

theorem propagation_keeps_solutions_waiting : waitingEngine.Solvable waitingSolution ∧
    (∃ e', waitingEngine.propagate = .done e' () ∧ e'.store.Admits waitingSolution) ∧
      ∃ e', waitingEngine.post (.greaterThan 2 5) = .done e' 4 ∧
        e'.store.Admits waitingSolution := by
  obtain ⟨hprop, hpost⟩ := propagation_keeps_solutions waitingEngine_solvable
  have hcov := waitingEngine_covered
  refine ⟨waitingEngine_solvable, hprop.resolve_right fun hfault => hfault.2.1 hcov, ?_⟩
  have hholds : (.greaterThan 2 5 : Propagator .int32).Holds waitingSolution := by
    simp [Propagator.Holds, waitingSolution]
  exact (hpost (.greaterThan 2 5) rfl hholds rfl (by decide)).resolve_right
    fun hfault => hfault.2.1 hcov

end FiniteDomains.Engine
