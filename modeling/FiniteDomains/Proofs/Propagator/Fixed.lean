import FiniteDomains.Proofs.Interval.Singleton
import FiniteDomains.Proofs.Propagator.Soundness

/-! Propagators of fixed variables. There is nothing left to narrow, so a run that succeeds changes
nothing, and then the values satisfy the constraint in exact arithmetic. -/
namespace FiniteDomains

namespace Store
variable {t : ValueType} {s : Store t} {x : VarId} {v : Variable t} {a : Int}

def FixedAt (s : Store t) (x : VarId) (a : Int) : Prop := ∀ w, s.HasValue x w ↔ w = a

theorem fixedAt_iff (hv : s.vars[x]? = some v) : s.FixedAt x a ↔ ∀ w, w ∈ v.values ↔ w = a := by
  simp only [FixedAt, hasValue_iff hv]

theorem FixedAt.exists_var (h : s.FixedAt x a) : ∃ v, s.vars[x]? = some v := by
  obtain ⟨v, hv, -⟩ := (h a).mpr rfl
  exact ⟨v, hv⟩

theorem FixedAt.admissible (h : s.FixedAt x a) (hs : s.Regular) : t.Admissible a := by
  obtain ⟨v, hv, hmem⟩ := (h a).mpr rfl
  exact hs.inUniverse hv a hmem

theorem FixedAt.boundedBy (h : s.FixedAt x a) (hs : s.WellFormed) :
    ∃ v, s.BoundedBy x v (.singleton a) := by
  obtain ⟨v, hv⟩ := h.exists_var
  obtain ⟨⟨lo, hi⟩, hr⟩ := hs.boundedBy hv
  have hvalues := (fixedAt_iff hv).mp h
  obtain rfl : lo = a := (hvalues lo).mp hr.least.1
  obtain rfl : hi = lo := (hvalues hi).mp hr.greatest.1
  exact ⟨v, hr⟩

theorem FixedAt.bounds (h : s.FixedAt x a) (hs : s.WellFormed) :
    s.bounds x = .ok (.singleton a) := by
  obtain ⟨v, hr⟩ := h.boundedBy hs
  exact hr.bounds

theorem FixedAt.lower (h : s.FixedAt x a) (hs : s.WellFormed) : s.lowerBound x = .ok a := by
  obtain ⟨v, hr⟩ := h.boundedBy hs
  exact hr.lower

theorem FixedAt.upper (h : s.FixedAt x a) (hs : s.WellFormed) : s.upperBound x = .ok a := by
  obtain ⟨v, hr⟩ := h.boundedBy hs
  exact hr.upper

theorem WellFormed.fixedAt_iff_read (hs : s.WellFormed) (hv : s.vars[x]? = some v) :
    s.FixedAt x a ↔ s.isFixed x = .ok true ∧ s.lowerBound x = .ok a := by
  obtain ⟨r, hr⟩ := hs.boundedBy hv
  have hfixed : s.isFixed x = .ok v.values.isSingleton := by
    simp [isFixed, domain, var, hv, bind, Except.bind, pure, Except.pure]
  have hconsistent : v.values.Consistent := (hs.current hv).valid.consistent
  rw [fixedAt_iff hv, hfixed, hr.lower, Except.ok.injEq, Except.ok.injEq,
    Domain.isSingleton_iff hconsistent]
  constructor
  · intro hvalues
    refine ⟨⟨a, Finset.ext fun w => ?_⟩, (hvalues r.lo).mp hr.least.1⟩
    rw [Domain.mem_toFinset, hvalues, Finset.mem_singleton]
  · rintro ⟨⟨u, hu⟩, rfl⟩ w
    have hmem (w : Int) : w ∈ v.values ↔ w = u := by
      rw [← Domain.mem_toFinset, hu, Finset.mem_singleton]
    rw [hmem, (hmem r.lo).mp hr.least.1]

/-! ### Narrowing -/

variable [t.Lawful] {n : Narrowing t}

theorem FixedAt.narrow_kept (h : s.FixedAt x a) (hs : s.WellFormed) (hn : n.Accepted)
    (hkeeps : n.Keeps a) : s.narrow x n = .done s .unchanged := by
  obtain ⟨v, hv⟩ := h.exists_var
  have hvalues := (fixedAt_iff hv).mp h
  refine narrow_of_keeps hs hv hn fun w hw => ?_
  rwa [(hvalues w).mp hw]

theorem FixedAt.narrow_lost (h : s.FixedAt x a) (hs : s.WellFormed) (ha : t.Admissible a)
    (hn : n.Accepted) (hlost : ¬n.Keeps a) : s.narrow x n = .emptied s := by
  obtain ⟨v, hv⟩ := h.exists_var
  have hvalues := (fixedAt_iff hv).mp h
  have hvalid : v.values.Valid := (hs.current hv).valid
  have hu : v.values.InUniverse := fun w hw => (hvalues w).mp hw ▸ ha
  have hnot {d : Domain t} (hd : v.Narrowed n d) : a ∉ d := fun hmem =>
    hlost ((hd.mem a).mp hmem).2
  have hresult := narrow_result hs hv hn.proper (hn.room _)
  generalize s.narrow x n = outcome at hresult
  cases hresult with
  | emptied _ => rfl
  | kept d hd hsize =>
    have hback := hu.mem_of_size hd.valid.consistent hvalid.consistent
      (fun w hw => ((hd.mem w).mp hw).1) hsize
    exact absurd (hback a ((hvalues a).mpr rfl)) (hnot hd)
  | changed d hd hpart =>
    obtain ⟨m, -, hm, -⟩ := Domain.exists_ends hpart.nonempty
    have hmem := (Domain.min?_isLeast hd.valid.consistent hm).1
    rw [(hvalues m).mp (hpart.subset m hmem)] at hmem
    exact absurd hmem (hnot hd)
  | refused offset href => exact absurd href (hn.not_refused offset)

end Store

/-- On a store where the variables have the assigned values and no others, an action that succeeds
changes nothing, and its result has a property. -/
def Action.Confirms {t : ValueType} {α : Type} (xs : List VarId) (σ : VarId → Int)
    (action : Action (Store t) α) (P : α → Prop) : Prop :=
  ∀ s s' r, s.Regular → (∀ x ∈ xs, s.FixedAt x (σ x)) → action s = .done s' r → s' = s ∧ P r

namespace Action.Confirms
variable {t : ValueType} {α β : Type} {xs : List VarId} {σ : VarId → Int} {x y z : VarId}
variable {r : Interval}

theorem pure {P : α → Prop} {a : α} (h : P a) :
    (Pure.pure a : Action (Store t) α).Confirms xs σ P := by
  intro s s' r _ _ hout
  cases hout
  exact ⟨rfl, h⟩

theorem bind {action : Action (Store t) α} {next : α → Action (Store t) β} {P : α → Prop}
    {Q : β → Prop} (ha : action.Confirms xs σ P) (hn : ∀ a, P a → (next a).Confirms xs σ Q) :
    (action >>= next).Confirms xs σ Q := by
  intro s s' b hs hfix hout
  obtain ⟨s₁, a, hout₁, hout₂⟩ := Action.Tightens.bind_done hout
  obtain ⟨rfl, hp⟩ := ha s s₁ a hs hfix hout₁
  exact hn a hp s₁ s' b hs hfix hout₂

theorem lift {result : Except Fault α} {a : α} (h : result = .ok a) :
    (Action.lift result : Action (Store t) α).Confirms xs σ (· = a) := by
  intro s s' b _ _ hout
  obtain ⟨hb, rfl⟩ := Action.Tightens.reading_done hout
  exact ⟨rfl, Except.ok.inj (hb.symm.trans h)⟩

theorem boundsOf (hx : x ∈ xs) :
    (boundsOf (t := t) x).Confirms xs σ fun r => r = .singleton (σ x) := by
  intro s s' r hs hfix hout
  obtain ⟨hr, rfl⟩ := Action.Tightens.reading_done hout
  have hbounds := (hfix x hx).bounds hs.toWellFormed
  exact ⟨rfl, Except.ok.inj (hr.symm.trans hbounds)⟩

variable [t.Lawful]

theorem narrowVar {n : Narrowing t} (hn : n.Accepted) (hx : x ∈ xs) :
    (narrowVar x n).Confirms xs σ fun _ => n.Keeps (σ x) := by
  intro s s' change hs hfix hout
  obtain ⟨v, hv⟩ := (hfix x hx).exists_var
  have hvalues := (Store.fixedAt_iff hv).mp (hfix x hx)
  have hends := hs.toWellFormed.narrow_ends hv hn
  have hkeeps : n.Keeps (σ x) := by
    have hshrunk : s.Shrunk s' := hends.done hout
    have hwf := hshrunk.wellFormed hs.toWellFormed
    obtain ⟨v', hv', -⟩ := hshrunk.tighter.var x v hv
    obtain ⟨w, hw⟩ := hwf.exists_value hv'
    obtain ⟨hw, hkeeps⟩ := (hs.narrow_values hv hn.proper hout x w).mp hw
    rw [← (hfix x hx w).mp hw]
    exact hkeeps rfl
  have hself := (hfix x hx).narrow_kept hs.toWellFormed hn hkeeps
  have hsame : s.narrow x n = .done s' change := hout
  rw [hself, Outcome.done.injEq] at hsame
  exact ⟨hsame.1.symm, hkeeps⟩

theorem narrowInto (hx : x ∈ xs) : (narrowInto (t := t) x r).Confirms xs σ fun _ => σ x ∈ r :=
  narrowVar (Narrowing.convex_within r.lo r.hi).toAccepted hx

theorem narrowIntoQuotients {quotients : Except DivisionError Interval} (hx : x ∈ xs) :
    (narrowIntoQuotients (t := t) x quotients).Confirms xs σ
      fun _ => ∃ r, quotients = .ok r ∧ σ x ∈ r := by
  cases quotients with
  | ok r =>
    intro s s' change hs hfix hout
    obtain ⟨hsame, hmem⟩ := narrowInto hx s s' change hs hfix hout
    exact ⟨hsame, r, rfl, hmem⟩
  | error cause =>
    intro s s' change _ _ hout
    cases hout

theorem propagateSum (hx : x ∈ xs) (hy : y ∈ xs) (hz : z ∈ xs) (hbx : t.Admissible (σ x))
    (hby : t.Admissible (σ y)) (hbz : t.Admissible (σ z)) :
    (propagateSum (t := t) x y z).Confirms xs σ fun _ => σ x + σ y = σ z := by
  have hsx := Interval.sturdy_singleton hbx
  have hsy := Interval.sturdy_singleton hby
  have hsz := Interval.sturdy_singleton hbz
  refine (boundsOf hx).bind ?_
  rintro _ rfl
  refine (boundsOf hy).bind ?_
  rintro _ rfl
  refine (lift (Interval.checkedAdd_eq hsx hsy)).bind ?_
  rintro _ rfl
  refine (narrowInto hz).bind fun _ hsum => (boundsOf hz).bind ?_
  rintro _ rfl
  refine (lift (Interval.checkedSub_eq hsz hsy)).bind ?_
  rintro _ rfl
  refine (narrowInto hx).bind fun _ hleft => (boundsOf hx).bind ?_
  rintro _ rfl
  refine (lift (Interval.checkedSub_eq hsz hsx)).bind ?_
  rintro _ rfl
  refine (narrowInto hy).bind fun _ hright => pure ?_
  exact Interval.sum_exact hbx hby hbz hsum hleft hright

theorem propagateProduct (hx : x ∈ xs) (hy : y ∈ xs) (hz : z ∈ xs) (hbz : t.Admissible (σ z)) :
    (propagateProduct (t := t) x y z).Confirms xs σ fun _ => σ x * σ y = σ z := by
  have hsz := Interval.sturdy_singleton hbz
  refine (boundsOf hx).bind ?_
  rintro _ rfl
  refine (boundsOf hy).bind ?_
  rintro _ rfl
  refine (lift (Interval.checkedMul_eq _ _)).bind ?_
  rintro _ rfl
  refine (narrowInto hz).bind fun _ _ => (boundsOf hz).bind ?_
  rintro _ rfl
  refine (lift (Interval.checkedDiv_eq hsz (Int.le_refl _))).bind ?_
  rintro _ rfl
  refine (narrowIntoQuotients hx).bind fun _ hfactor => (boundsOf hx).bind ?_
  rintro _ rfl
  refine (lift (Interval.checkedDiv_eq hsz (Int.le_refl _))).bind ?_
  rintro _ rfl
  refine (narrowIntoQuotients hy).bind fun _ _ => pure ?_
  obtain ⟨r, hdiv, hmem⟩ := hfactor
  exact Interval.product_exact hbz hdiv hmem

end Action.Confirms

namespace Propagator
variable {t : ValueType} {p : Propagator t} {σ : VarId → Int} {s s' : Store t} {x : VarId}
variable {bound : Int}

/-- Sums, products and comparisons with a constant, where the step from the constant to the value
before or after it does not come out on the other side. -/
def Exact : Propagator t → Prop
  | .plus .. | .times .. | .notEqual .. => True
  | .lessThan _ bound => t.pred bound < bound
  | .greaterThan _ bound => bound < t.succ bound
  | .cumulative .. | .script _ => False

instance : (p : Propagator t) → Decidable p.Exact
  | .plus .. | .times .. | .notEqual .. => .isTrue trivial
  | .lessThan _ bound => inferInstanceAs (Decidable (t.pred bound < bound))
  | .greaterThan _ bound => inferInstanceAs (Decidable (bound < t.succ bound))
  | .cumulative .. | .script _ => .isFalse id

/-- Sums, products and comparisons with a constant of the universe. -/
def Scoped : Propagator t → Prop
  | .plus .. | .times .. | .notEqual .. => True
  | .lessThan _ bound | .greaterThan _ bound => t.Admissible bound
  | .cumulative .. | .script _ => False

instance : (p : Propagator t) → Decidable p.Scoped
  | .plus .. | .times .. | .notEqual .. => .isTrue trivial
  | .lessThan _ bound | .greaterThan _ bound => inferInstanceAs (Decidable (t.Admissible bound))
  | .cumulative .. | .script _ => .isFalse id

variable [t.Lawful]

theorem exact_lessThan (h : t.Admissible bound) : (lessThan x bound : Propagator t).Exact := by
  simp only [Exact, ValueType.pred_eq h.inner.1]
  omega

theorem exact_greaterThan (h : t.Admissible bound) :
    (greaterThan x bound : Propagator t).Exact := by
  simp only [Exact, ValueType.succ_eq h.inner.2]
  omega

theorem Scoped.exact (hp : p.Scoped) : p.Exact := by
  cases p with
  | plus | times | notEqual => trivial
  | lessThan x bound => exact exact_lessThan hp
  | greaterThan x bound => exact exact_greaterThan hp
  | cumulative | script => exact hp

/-- Running a propagator on fixed variables checks its constraint in exact arithmetic. -/
theorem Exact.confirms (hp : p.Exact) (hb : ∀ x ∈ p.vars, t.Admissible (σ x)) :
    p.propagate.Confirms p.vars σ fun _ => p.Holds σ := by
  cases p with
  | plus x y z =>
    simp only [vars_plus, List.forall_mem_cons] at hb
    exact .propagateSum (by simp) (by simp) (by simp) hb.1 hb.2.1 hb.2.2.1
  | times x y z =>
    simp only [vars_times, List.forall_mem_cons] at hb
    exact .propagateProduct (by simp) (by simp) (by simp) hb.2.2.1
  | lessThan x bound =>
    have hx : x ∈ (lessThan x bound : Propagator t).vars := by simp
    refine (Action.Confirms.narrowVar (Narrowing.convex_atMost _).toAccepted hx).bind
      fun _ hkeeps => .pure ?_
    exact Int.lt_of_le_of_lt hkeeps hp
  | greaterThan x bound =>
    have hx : x ∈ (greaterThan x bound : Propagator t).vars := by simp
    refine (Action.Confirms.narrowVar (Narrowing.convex_atLeast _).toAccepted hx).bind
      fun _ hkeeps => .pure ?_
    exact Int.lt_of_lt_of_le hp hkeeps
  | notEqual x excluded =>
    have hx : x ∈ (notEqual x excluded : Propagator t).vars := by simp
    refine (Action.Confirms.narrowVar (Narrowing.accepted_outside _ _) hx).bind
      fun _ hkeeps => .pure ?_
    intro heq
    exact hkeeps ⟨Int.le_of_eq heq.symm, Int.le_of_eq heq⟩
  | cumulative tasks capacity => exact absurd hp id
  | script body => exact absurd hp id

theorem Exact.holds_of_done (hp : p.Exact) (h : s.Regular)
    (hfix : ∀ x ∈ p.vars, s.FixedAt x (σ x)) (hout : p.propagate s = .done s' ()) :
    s' = s ∧ p.Holds σ :=
  hp.confirms (fun x hx => (hfix x hx).admissible h) s s' () h hfix hout

end Propagator
end FiniteDomains
