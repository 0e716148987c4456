import FiniteDomains.Proofs.Engine.Covered
import FiniteDomains.Proofs.Propagator.Fixed

/-! Fixed points where the variables are fixed. Their values satisfy the constraints. -/
namespace FiniteDomains.Engine
variable {t : ValueType} [t.Lawful] {e : Engine t} {σ : VarId → Int}

/-- Where all propagators are settled and their variables hold a single value each, these values
satisfy the constraints in exact arithmetic. That is so of comparisons with any constant of the
universe, and with others as long as they can be stepped from. -/
theorem settled_fixed_solves (h : e.store.Regular) (hset : e.AllSettled)
    (hfix : ∀ p ∈ e.propagators, ∀ x ∈ p.vars, e.store.FixedAt x (σ x)) :
    (∀ p ∈ e.propagators, p.Scoped → p.Holds σ) ∧
      ∀ p ∈ e.propagators, p.Exact → p.Holds σ := by
  have hholds (p : Propagator t) (hp : p ∈ e.propagators) (hexact : p.Exact) : p.Holds σ := by
    obtain ⟨s', hout, -⟩ := hset p hp
    exact (hexact.holds_of_done h (hfix p hp) hout).2
  exact ⟨fun p hp hscoped => hholds p hp hscoped.exact, hholds⟩

/-- An engine with fixed variables, some of which occur more than once in a constraint. -/
def solvedEngine : Engine .int32 where
  store := {
    vars := [
      ⟨0, ⟨.intervals [⟨3, 3⟩], 0, .empty, .empty, false⟩, []⟩,
      ⟨1, ⟨.sparse [9], 0, .empty, .empty, false⟩, []⟩,
      ⟨2, ⟨.intervals [⟨0, 0⟩], 0, .empty, .empty, false⟩, []⟩,
      ⟨3, ⟨.sparse [536870909], 0, .empty, .empty, false⟩, []⟩]
    level := 0
    trail := []
    woken := .empty
    names := .empty
    options := .standard }
  propagators := [.times 0 0 1, .plus 1 2 1, .times 2 3 2, .plus 3 2 3, .lessThan 0 5,
    .greaterThan 3 536870908, .notEqual 1 3]
  checked := true
  runs := []

def solvedValues : VarId → Int
  | 0 => 3
  | 1 => 9
  | 2 => 0
  | _ => 536870909

theorem solvedEngine_regular : solvedEngine.store.Regular := by
  refine Store.regular_root rfl rfl ?_ ?_
  · simp [solvedEngine, Variable.stamp, Variable.values, Domain.Consistent, Runs.Consistent,
      Points.Consistent, Domain.isEmpty]
  · simp only [solvedEngine, Store.Within, Variable.values, List.forall_mem_cons,
      Domain.forall_mem_intervals, Domain.forall_mem_sparse, Interval.mem_mk,
      ValueType.admissible_int32]
    and_intros <;> grind

theorem solvedEngine_scoped : ∀ p ∈ solvedEngine.propagators, p.Scoped := by decide

theorem solvedEngine_settled : solvedEngine.AllSettled := by
  have hquiet : ∀ p ∈ solvedEngine.propagators,
      p.propagate solvedEngine.store = .done solvedEngine.store () := by
    decide +kernel
  exact fun p hp => ⟨solvedEngine.store, hquiet p hp, rfl⟩

theorem solvedEngine_fixed : ∀ p ∈ solvedEngine.propagators, ∀ x ∈ p.vars,
    solvedEngine.store.FixedAt x (solvedValues x) := by
  have hreads : ∀ x < 4, solvedEngine.store.isFixed x = .ok true ∧
      solvedEngine.store.lowerBound x = .ok (solvedValues x) := by
    decide
  have hvars : ∀ p ∈ solvedEngine.propagators, ∀ x ∈ p.vars,
      x < solvedEngine.store.vars.length := by
    decide
  intro p hp x hx
  have hlt := hvars p hp x hx
  have hv := List.getElem?_eq_getElem hlt
  exact (solvedEngine_regular.toWellFormed.fixedAt_iff_read hv).mpr (hreads x hlt)

theorem settled_fixed_solves_repeated :
    solvedEngine.store.Regular ∧ (∀ p ∈ solvedEngine.propagators, p.Scoped) ∧
      solvedEngine.AllSettled ∧
      (∀ p ∈ solvedEngine.propagators, ∀ x ∈ p.vars,
        solvedEngine.store.FixedAt x (solvedValues x)) ∧
      ∀ p ∈ solvedEngine.propagators, p.Holds solvedValues := by
  obtain ⟨hscoped, -⟩ := settled_fixed_solves solvedEngine_regular solvedEngine_settled
    solvedEngine_fixed
  exact ⟨solvedEngine_regular, solvedEngine_scoped, solvedEngine_settled, solvedEngine_fixed,
    fun p hp => hscoped p hp (solvedEngine_scoped p hp)⟩

end FiniteDomains.Engine
