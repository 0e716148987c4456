import FiniteDomains.Proofs.Interval.Division
import FiniteDomains.Proofs.Propagator.Settled

/-! Propagators lose no solution: an assignment that a store admits and that satisfies a constraint
is still admitted when the propagator of the constraint has been run. -/
namespace FiniteDomains

namespace Store
variable {t : ValueType} {s s' : Store t} {x : VarId} {v : Variable t} {n : Narrowing t}
variable {σ : VarId → Int}

/-- A store of values from the balanced part of the universe that admits an assignment. -/
structure Feasible (s : Store t) (σ : VarId → Int) : Prop where
  wellFormed : s.WellFormed
  balanced : s.Within t.Balanced
  admits : s.Admits σ

theorem Feasible.balanced_at (h : s.Feasible σ) (hv : s.vars[x]? = some v) : t.Balanced (σ x) :=
  h.balanced v (List.mem_of_getElem? hv) _ (h.admits x v hv)

theorem Feasible.regular [t.Lawful] (h : s.Feasible σ) : s.Regular :=
  ⟨h.wellFormed, fun v hv w hw => (h.balanced v hv w hw).admissible⟩

theorem Regular.narrow_admits [t.Lawful] (h : s.Regular) (hσ : s.Admits σ)
    (hv : s.vars[x]? = some v) (hn : n.Accepted) (hkeeps : n.Keeps (σ x)) :
    ∃ s' change, s.narrow x n = .done s' change ∧ s'.Admits σ ∧ s.Shrunk s' := by
  obtain ⟨s', change, hout, hshrunk⟩ := h.narrow_succeeds hv hn (hσ x v hv) hkeeps
  refine ⟨s', change, hout, fun y u' hu' => ?_, hshrunk⟩
  obtain ⟨u, hu⟩ := exists_var_of_length hshrunk.tighter.length hu'
  rw [← hasValue_iff hu', h.narrow_values hv hn.proper hout, hasValue_iff hu]
  exact ⟨hσ y u hu, fun hy => hy ▸ hkeeps⟩

theorem Feasible.narrow [t.Lawful] (h : s.Feasible σ) (hv : s.vars[x]? = some v)
    (hn : n.Accepted) (hkeeps : n.Keeps (σ x)) :
    ∃ s' change, s.narrow x n = .done s' change ∧ s'.Feasible σ ∧ s.Shrunk s' := by
  obtain ⟨s', change, hout, hadmits, hshrunk⟩ := h.regular.narrow_admits h.admits hv hn hkeeps
  exact ⟨s', change, hout, ⟨hshrunk.wellFormed h.wellFormed, hshrunk.tighter.within h.balanced,
    hadmits⟩, hshrunk⟩

end Store

/-- An action succeeds on every store that admits an assignment, and keeps the assignment. -/
def Action.Retains {t : ValueType} {α : Type} (xs : List VarId) (σ : VarId → Int)
    (action : Action (Store t) α) (P : α → Prop) : Prop :=
  ∀ s, s.Feasible σ → s.Has xs →
    ∃ s' r, action s = .done s' r ∧ s'.Feasible σ ∧ s.Shrunk s' ∧ P r

namespace Action.Retains
variable {t : ValueType} {α β : Type} {xs : List VarId} {σ : VarId → Int} {x y z : VarId}
variable {r : Interval}

theorem pure {P : α → Prop} {a : α} (h : P a) :
    (Pure.pure a : Action (Store t) α).Retains xs σ P :=
  fun s hs _ => ⟨s, a, rfl, hs, .refl s, h⟩

theorem bind {action : Action (Store t) α} {next : α → Action (Store t) β} {P : α → Prop}
    {Q : β → Prop} (ha : action.Retains xs σ P) (hn : ∀ a, P a → (next a).Retains xs σ Q) :
    (action >>= next).Retains xs σ Q := by
  intro s hs hx
  obtain ⟨s₁, a, hout, hs₁, hshrunk, hp⟩ := ha s hs hx
  obtain ⟨s₂, b, hout', hs₂, hshrunk', hq⟩ := hn a hp s₁ hs₁ (hshrunk.tighter.has hx)
  refine ⟨s₂, b, ?_, hs₂, hshrunk.trans hshrunk', hq⟩
  simp only [Bind.bind, hout, Outcome.andThen, hout']

theorem lift {result : Except Fault α} {a : α} (h : result = .ok a) :
    (Action.lift result : Action (Store t) α).Retains xs σ (· = a) :=
  fun s hs _ => ⟨s, a, Action.Tightens.reading_ok h, hs, .refl s, rfl⟩

theorem boundsOf (hx : x ∈ xs) : (boundsOf (t := t) x).Retains xs σ fun r =>
    σ x ∈ r ∧ r.EndsIn t.Balanced := by
  intro s hs hxs
  obtain ⟨v, hv⟩ := hxs x hx
  obtain ⟨r, hr⟩ := hs.wellFormed.boundedBy hv
  have hbalanced := hs.balanced v (List.mem_of_getElem? hv)
  have hmem := hs.admits x v hv
  exact ⟨s, r, Action.Tightens.reading_ok hr.bounds, hs, .refl s,
    ⟨hr.least.2 hmem, hr.greatest.2 hmem⟩, hbalanced _ hr.least.1, hbalanced _ hr.greatest.1⟩

variable [t.Lawful]

theorem narrowVar {n : Narrowing t} (hn : n.Accepted) (hx : x ∈ xs) (hkeeps : n.Keeps (σ x)) :
    (narrowVar x n).Retains xs σ fun _ => True := by
  intro s hs hxs
  obtain ⟨v, hv⟩ := hxs x hx
  obtain ⟨s', change, hout, hs', hshrunk⟩ := hs.narrow hv hn hkeeps
  exact ⟨s', change, hout, hs', hshrunk, trivial⟩

theorem narrowInto (hx : x ∈ xs) (hmem : σ x ∈ r) :
    (narrowInto (t := t) x r).Retains xs σ fun _ => True :=
  narrowVar (Narrowing.convex_within r.lo r.hi).toAccepted hx hmem

theorem narrowIntoQuotients {quotients : Except DivisionError Interval} (hx : x ∈ xs)
    (h : ∃ r, quotients = .ok r ∧ σ x ∈ r) :
    (narrowIntoQuotients (t := t) x quotients).Retains xs σ fun _ => True := by
  obtain ⟨r, rfl, hmem⟩ := h
  exact narrowInto hx hmem

theorem propagateSum (hx : x ∈ xs) (hy : y ∈ xs) (hz : z ∈ xs) (hσ : σ x + σ y = σ z)
    (hbx : t.Admissible (σ x)) (hby : t.Admissible (σ y)) (hbz : t.Admissible (σ z)) :
    (propagateSum (t := t) x y z).Retains xs σ fun _ => True := by
  refine (boundsOf hx).bind fun rx hrx => (boundsOf hy).bind fun ry hry => ?_
  have hsx := hrx.2.admissible.sturdy_of_mem hrx.1
  have hsy := hry.2.admissible.sturdy_of_mem hry.1
  have hsum : σ z ∈ Interval.add t rx ry := by
    rw [← hσ] at hbz ⊢
    exact Interval.add_mem hrx.2.admissible hry.2.admissible hrx.1 hry.1 hbz
  refine (lift (Interval.checkedAdd_eq hsx hsy)).bind ?_
  rintro _ rfl
  refine (narrowInto hz hsum).bind fun _ _ => (boundsOf hz).bind fun rz hrz => ?_
  have hsz := hrz.2.admissible.sturdy_of_mem hrz.1
  have hdiff : σ x ∈ Interval.sub t rz ry := by
    have heq : σ x = σ z - σ y := by omega
    rw [heq] at hbx ⊢
    exact Interval.sub_mem hrz.2.admissible hry.2 hrz.1 hry.1 hbx
  refine (lift (Interval.checkedSub_eq hsz hsy)).bind ?_
  rintro _ rfl
  refine (narrowInto hx hdiff).bind fun _ _ => (boundsOf hx).bind fun rx hrx => ?_
  have hdiff' : σ y ∈ Interval.sub t rz rx := by
    have heq : σ y = σ z - σ x := by omega
    rw [heq] at hby ⊢
    exact Interval.sub_mem hrz.2.admissible hrx.2 hrz.1 hrx.1 hby
  have hsx' := hrx.2.admissible.sturdy_of_mem hrx.1
  refine (lift (Interval.checkedSub_eq hsz hsx')).bind ?_
  rintro _ rfl
  exact (narrowInto hy hdiff').bind fun _ _ => pure trivial

theorem propagateProduct (hx : x ∈ xs) (hy : y ∈ xs) (hz : z ∈ xs) (hσ : σ x * σ y = σ z)
    (hbx : t.Admissible (σ x)) (hby : t.Admissible (σ y)) (hbz : t.Admissible (σ z)) :
    (propagateProduct (t := t) x y z).Retains xs σ fun _ => True := by
  refine (boundsOf hx).bind fun rx hrx => (boundsOf hy).bind fun ry hry => ?_
  have hprod : σ z ∈ Interval.mul t rx ry := by
    rw [← hσ] at hbz ⊢
    exact Interval.mul_mem hrx.1 hry.1 hbz
  refine (lift (Interval.checkedMul_eq rx ry)).bind ?_
  rintro _ rfl
  refine (narrowInto hz hprod).bind fun _ _ => (boundsOf hz).bind fun rz hrz => ?_
  have hsz := hrz.2.admissible.sturdy_of_mem hrz.1
  have hfactor : ∃ r, Interval.div t .factor rz ry = .ok r ∧ σ x ∈ r :=
    Interval.div_factor_sound hrz.2.admissible (fun _ _ => hbx) hry.1 (hσ ▸ hrz.1)
  refine (lift (Interval.checkedDiv_eq hsz (hry.2.admissible.sturdy_of_mem hry.1).le)).bind ?_
  rintro _ rfl
  refine (narrowIntoQuotients hx hfactor).bind fun _ _ => (boundsOf hx).bind fun rx hrx => ?_
  have hfactor' : ∃ r, Interval.div t .factor rz rx = .ok r ∧ σ y ∈ r :=
    Interval.div_factor_sound hrz.2.admissible (fun _ _ => hby) hrx.1
      (by rw [Int.mul_comm, hσ]; exact hrz.1)
  refine (lift (Interval.checkedDiv_eq hsz (hrx.2.admissible.sturdy_of_mem hrx.1).le)).bind ?_
  rintro _ rfl
  exact (narrowIntoQuotients hy hfactor').bind fun _ _ => pure trivial

end Action.Retains

namespace Task

/-- The amount of the resource that tasks use at a time under an assignment. -/
def usage (σ : VarId → Int) (tasks : List Task) (time : Int) : Int :=
  ((tasks.filter fun task =>
    decide (σ task.start ≤ time) && decide (time < σ task.start + σ task.duration)).map
      fun task => σ task.resource).sum

end Task

namespace Propagator
variable {t : ValueType} {p : Propagator t} {σ : VarId → Int} {s : Store t}

/-- An assignment satisfies the constraint of a propagator. A script stands for none. -/
def Holds (σ : VarId → Int) : Propagator t → Prop
  | .plus x y z => σ x + σ y = σ z
  | .times x y z => σ x * σ y = σ z
  | .lessThan x bound => σ x < bound
  | .greaterThan x bound => bound < σ x
  | .notEqual x excluded => σ x ≠ excluded
  | .cumulative tasks capacity => ∀ time, Task.usage σ tasks time ≤ capacity
  | .script _ => True

/-- Sums, products and comparisons of a variable with a constant, which is a value that fits. -/
def Arithmetic : Propagator t → Prop
  | .plus .. | .times .. => True
  | .lessThan _ bound | .greaterThan _ bound | .notEqual _ bound => t.fits bound = true
  | .cumulative .. | .script _ => False

theorem Arithmetic.builtin (hp : p.Arithmetic) : p.Builtin := by
  cases p <;> trivial

/-- Running an arithmetic propagator keeps every assignment that satisfies its constraint. -/
theorem Arithmetic.retains [t.Lawful] (hp : p.Arithmetic) (hσ : p.Holds σ)
    (hb : ∀ x ∈ p.vars, t.Admissible (σ x)) :
    p.propagate.Retains p.vars σ fun _ => True := by
  have hbx {x : VarId} (hx : x ∈ p.vars) : t.fits (σ x) = true := (hb x hx).fits
  cases p with
  | plus x y z =>
    simp only [vars_plus, List.forall_mem_cons] at hb
    exact .propagateSum (by simp) (by simp) (by simp) hσ hb.1 hb.2.1 hb.2.2.1
  | times x y z =>
    simp only [vars_times, List.forall_mem_cons] at hb
    exact .propagateProduct (by simp) (by simp) (by simp) hσ hb.1 hb.2.1 hb.2.2.1
  | lessThan x bound =>
    have hx : x ∈ (lessThan x bound : Propagator t).vars := by simp
    have hlt : σ x < bound := hσ
    have hfit : t.fits (bound - 1) = true :=
      ValueType.Lawful.fits_between _ _ _ (hbx hx) hp (by omega) (by omega)
    have hkeeps : (.atMost (t.pred bound) : Narrowing t).Keeps (σ x) := by
      rw [ValueType.pred_eq hfit]
      exact Int.le_sub_one_of_lt hlt
    exact (Action.Retains.narrowVar (Narrowing.convex_atMost _).toAccepted hx hkeeps).bind
      fun _ _ => .pure trivial
  | greaterThan x bound =>
    have hx : x ∈ (greaterThan x bound : Propagator t).vars := by simp
    have hlt : bound < σ x := hσ
    have hfit : t.fits (bound + 1) = true :=
      ValueType.Lawful.fits_between _ _ _ hp (hbx hx) (by omega) (by omega)
    have hkeeps : (.atLeast (t.succ bound) : Narrowing t).Keeps (σ x) := by
      rw [ValueType.succ_eq hfit]
      exact hlt
    exact (Action.Retains.narrowVar (Narrowing.convex_atLeast _).toAccepted hx hkeeps).bind
      fun _ _ => .pure trivial
  | notEqual x excluded =>
    have hx : x ∈ (notEqual x excluded : Propagator t).vars := by simp
    have hne : σ x ≠ excluded := hσ
    have hkeeps : (.outside excluded excluded : Narrowing t).Keeps (σ x) := by
      simp only [Narrowing.Keeps]
      omega
    exact (Action.Retains.narrowVar (Narrowing.accepted_outside _ _) hx hkeeps).bind
      fun _ _ => .pure trivial
  | cumulative tasks capacity => exact absurd hp id
  | script body => exact absurd hp id

end Propagator
end FiniteDomains
