import FiniteDomains.Proofs.Interval.Monotone
import FiniteDomains.Proofs.Propagator.Soundness

/-! Propagators are monotone. One that succeeds on a store succeeds on every store with more values,
and leaves more there: bounds that are inside others give narrowings that keep less. -/
namespace FiniteDomains

namespace Store
variable {t : ValueType} {s s' s₀ s₀' : Store t} {x : VarId} {n n₀ : Narrowing t}
variable {xs : List VarId}

theorem below_of_domains (h : s'.domains = s.domains) : s'.Below s := by
  refine ⟨by simpa [domains] using congrArg List.length h, ?_⟩
  rintro x w ⟨v', hv', hw⟩
  have heq := s'.domains_getElem? x
  rw [h, domains_getElem?, hv'] at heq
  obtain ⟨v, hv, hvalues⟩ := Option.map_eq_some_iff.mp heq
  exact ⟨v, hv, hvalues ▸ hw⟩

/-- Regular stores with the given variables, where the second one has all values of the first. -/
structure Inside (xs : List VarId) (s₀ s : Store t) : Prop extends s₀.Below s where
  inner : s₀.Regular
  outer : s.Regular
  has : s₀.Has xs

theorem Inside.has_outer (h : Inside xs s₀ s) : s.Has xs := by
  intro x hx
  obtain ⟨v₀, hv₀⟩ := h.has x hx
  obtain ⟨w, hw⟩ := h.inner.exists_value hv₀
  obtain ⟨v, hv, -⟩ := h.subset x w hw
  exact ⟨v, hv⟩

variable [t.Lawful]

theorem Inside.narrow (h : Inside xs s₀ s) (hx : x ∈ xs) (hn₀ : n₀.Accepted) (hn : n.Accepted)
    (hkeeps : ∀ w, t.Admissible w → n₀.Keeps w → n.Keeps w) {change₀ : Change}
    (hout : s₀.narrow x n₀ = .done s₀' change₀) :
    ∃ s' change, s.narrow x n = .done s' change ∧ Inside xs s₀' s' := by
  obtain ⟨v₀, hv₀⟩ := h.has x hx
  obtain ⟨v, hv⟩ := h.has_outer x hx
  have hshrunk₀ : s₀.Shrunk s₀' := (h.inner.narrow_shrunk_ends hv₀ hn₀).done hout
  have hinner := hshrunk₀.regular h.inner
  have hhas := hshrunk₀.tighter.has h.has
  have hkept (y : VarId) (w : Int) (hw : s₀'.HasValue y w) :
      s.HasValue y w ∧ (y = x → n.Keeps w) := by
    obtain ⟨hw₀, hkeeps₀⟩ := (h.inner.narrow_values hv₀ hn₀.proper hout y w).mp hw
    refine ⟨h.subset y w hw₀, fun hy => hkeeps w ?_ (hkeeps₀ hy)⟩
    obtain ⟨u, hu, hmem⟩ := hw₀
    exact h.inner.inUniverse hu w hmem
  -- what is left of the smaller store is a value that the larger one keeps
  obtain ⟨v₀', hv₀'⟩ := hhas x hx
  obtain ⟨w, hw⟩ := hinner.exists_value hv₀'
  obtain ⟨hmem, hkeepsw⟩ := hkept x w hw
  obtain ⟨s', change, hout', hshrunk⟩ :=
    h.outer.narrow_succeeds hv hn ((hasValue_iff hv).mp hmem) (hkeepsw rfl)
  refine ⟨s', change, hout', ⟨?_, fun y w hw => ?_⟩, hinner, hshrunk.regular h.outer, hhas⟩
  · exact hshrunk₀.tighter.length.trans (h.length.trans hshrunk.tighter.length.symm)
  · exact (h.outer.narrow_values hv hn.proper hout' y w).mpr (hkept y w hw)

end Store

/-- Where one action succeeds on a store, another one succeeds on every store with more values and
leaves more there, and their results are related. -/
def Action.Follows {t : ValueType} {α : Type} (xs : List VarId)
    (action₀ action : Action (Store t) α) (R : α → α → Prop) : Prop :=
  ∀ s₀ s s₀' r₀, Store.Inside xs s₀ s → action₀ s₀ = .done s₀' r₀ →
    ∃ s' r, action s = .done s' r ∧ Store.Inside xs s₀' s' ∧ R r₀ r

namespace Action.Follows
variable {t : ValueType} {α β : Type} {xs : List VarId} {x y z : VarId} {r r₀ : Interval}

theorem pure {R : α → α → Prop} {a₀ a : α} (h : R a₀ a) :
    (Pure.pure a₀ : Action (Store t) α).Follows xs (Pure.pure a) R := by
  intro s₀ s s₀' r₀ hs hout
  cases hout
  exact ⟨s, a, rfl, hs, h⟩

theorem bind {action₀ action : Action (Store t) α} {next₀ next : α → Action (Store t) β}
    {P : α → α → Prop} {Q : β → β → Prop} (ha : action₀.Follows xs action P)
    (hn : ∀ a₀ a, P a₀ a → (next₀ a₀).Follows xs (next a) Q) :
    (action₀ >>= next₀).Follows xs (action >>= next) Q := by
  intro s₀ s s₀'' b₀ hs hout
  obtain ⟨s₀', a₀, hout₁, hout₂⟩ := Action.Tightens.bind_done hout
  obtain ⟨s', a, hdone, hs', hp⟩ := ha s₀ s s₀' a₀ hs hout₁
  obtain ⟨s'', b, hdone', hs'', hq⟩ := hn a₀ a hp s₀' s' s₀'' b₀ hs' hout₂
  refine ⟨s'', b, ?_, hs'', hq⟩
  simp only [Bind.bind, hdone, Outcome.andThen, hdone']

theorem lift {result₀ result : Except Fault α} {a₀ a : α} (h₀ : result₀ = .ok a₀)
    (h : result = .ok a) :
    (Action.lift result₀ : Action (Store t) α).Follows xs (Action.lift result)
      fun b₀ b => b₀ = a₀ ∧ b = a := by
  intro s₀ s s₀' b₀ hs hout
  obtain ⟨hb₀, rfl⟩ := Action.Tightens.reading_done hout
  exact ⟨s, a, Action.Tightens.reading_ok h, hs, Except.ok.inj (hb₀.symm.trans h₀), rfl⟩

theorem boundsOf (hx : x ∈ xs) : (boundsOf (t := t) x).Follows xs (boundsOf x) fun r₀ r =>
    r₀.Inside r ∧ r.EndsIn t.Admissible := by
  intro s₀ s s₀' r₀ hs hout
  obtain ⟨hr₀, rfl⟩ := Action.Tightens.reading_done hout
  obtain ⟨v₀, hv₀⟩ := hs.has x hx
  obtain ⟨v, hv⟩ := hs.has_outer x hx
  obtain ⟨b₀, hb₀⟩ := hs.inner.boundedBy hv₀
  obtain ⟨b, hb⟩ := hs.outer.boundedBy hv
  obtain rfl : b₀ = r₀ := Except.ok.inj (hb₀.bounds.symm.trans hr₀)
  have hsub (w : Int) (hw : w ∈ v₀.values) : w ∈ v.values :=
    (Store.hasValue_iff hv).mp (hs.subset x w ((Store.hasValue_iff hv₀).mpr hw))
  have hinside : b₀.Inside b := ⟨hb₀.greatest.2 hb₀.least.1, hb.least.2 (hsub _ hb₀.least.1),
    hb.greatest.2 (hsub _ hb₀.greatest.1)⟩
  have huniverse := hs.outer.inUniverse hv
  exact ⟨s, b, Action.Tightens.reading_ok hb.bounds, hs, hinside, huniverse _ hb.least.1,
    huniverse _ hb.greatest.1⟩

variable [t.Lawful]

theorem narrowVar {n₀ n : Narrowing t} (hx : x ∈ xs) (hn₀ : n₀.Accepted) (hn : n.Accepted)
    (hkeeps : ∀ w, t.Admissible w → n₀.Keeps w → n.Keeps w) :
    (narrowVar x n₀).Follows xs (narrowVar x n) fun _ _ => True := by
  intro s₀ s s₀' change₀ hs hout
  obtain ⟨s', change, hdone, hs'⟩ := hs.narrow hx hn₀ hn hkeeps hout
  exact ⟨s', change, hdone, hs', trivial⟩

theorem narrowInto (hx : x ∈ xs) (h : ∀ w, t.Admissible w → w ∈ r₀ → w ∈ r) :
    (narrowInto (t := t) x r₀).Follows xs (narrowInto x r) fun _ _ => True :=
  narrowVar hx (Narrowing.convex_within r₀.lo r₀.hi).toAccepted
    (Narrowing.convex_within r.lo r.hi).toAccepted h

theorem narrowIntoQuotients {quotients₀ quotients : Except DivisionError Interval} (hx : x ∈ xs)
    (h : ∀ r₀, quotients₀ = .ok r₀ →
      ∃ r, quotients = .ok r ∧ ∀ w, t.Admissible w → w ∈ r₀ → w ∈ r) :
    (narrowIntoQuotients (t := t) x quotients₀).Follows xs (narrowIntoQuotients x quotients)
      fun _ _ => True := by
  cases quotients₀ with
  | ok r₀ =>
    obtain ⟨r, rfl, hr⟩ := h r₀ rfl
    exact narrowInto hx hr
  | error cause =>
    intro s₀ s s₀' change₀ _ hout
    cases hout

theorem propagateSum (hx : x ∈ xs) (hy : y ∈ xs) (hz : z ∈ xs) :
    (propagateSum (t := t) x y z).Follows xs (propagateSum x y z) fun _ _ => True := by
  refine (boundsOf hx).bind fun rx₀ rx hrx => (boundsOf hy).bind fun ry₀ ry hry => ?_
  have hsum := Interval.add_inside hrx.2 hry.2 hrx.1 hry.1
  obtain ⟨hmade₀, hmade⟩ := Interval.Inside.wellMade hrx.2 hry.2 hrx.1 hry.1
  refine (lift hmade₀.add hmade.add).bind ?_
  rintro _ _ ⟨rfl, rfl⟩
  refine (narrowInto hz fun _ _ => hsum.mem).bind fun _ _ _ =>
    (boundsOf hz).bind fun rz₀ rz hrz => ?_
  have hdiff := Interval.sub_inside hrz.2 hry.2 hrz.1 hry.1
  obtain ⟨hmade₀, hmade⟩ := Interval.Inside.wellMade hrz.2 hry.2 hrz.1 hry.1
  refine (lift hmade₀.sub hmade.sub).bind ?_
  rintro _ _ ⟨rfl, rfl⟩
  refine (narrowInto hx fun _ _ => hdiff.mem).bind fun _ _ _ =>
    (boundsOf hx).bind fun rx₀ rx hrx => ?_
  have hdiff' := Interval.sub_inside hrz.2 hrx.2 hrz.1 hrx.1
  obtain ⟨hmade₀, hmade⟩ := Interval.Inside.wellMade hrz.2 hrx.2 hrz.1 hrx.1
  refine (lift hmade₀.sub hmade.sub).bind ?_
  rintro _ _ ⟨rfl, rfl⟩
  exact (narrowInto hy fun _ _ => hdiff'.mem).bind fun _ _ _ => pure trivial

theorem propagateProduct (hx : x ∈ xs) (hy : y ∈ xs) (hz : z ∈ xs) :
    (propagateProduct (t := t) x y z).Follows xs (propagateProduct x y z) fun _ _ => True := by
  refine (boundsOf hx).bind fun rx₀ rx hrx => (boundsOf hy).bind fun ry₀ ry hry => ?_
  have hprod := Interval.mul_inside (t := t) hrx.1 hry.1
  refine (lift (Interval.checkedMul_eq rx₀ ry₀) (Interval.checkedMul_eq rx ry)).bind ?_
  rintro _ _ ⟨rfl, rfl⟩
  refine (narrowInto hz fun _ _ => hprod.mem).bind fun _ _ _ =>
    (boundsOf hz).bind fun rz₀ rz hrz => ?_
  obtain ⟨hmade₀, hmade⟩ := Interval.Inside.wellMade hrz.2 hry.2 hrz.1 hry.1
  refine (lift (hmade₀.div _) (hmade.div _)).bind ?_
  rintro _ _ ⟨rfl, rfl⟩
  refine (narrowIntoQuotients hx fun _ => Interval.div_inside hrz.2 hrz.1 hry.1).bind
    fun _ _ _ => (boundsOf hx).bind fun rx₀ rx hrx => ?_
  obtain ⟨hmade₀, hmade⟩ := Interval.Inside.wellMade hrz.2 hrx.2 hrz.1 hrx.1
  refine (lift (hmade₀.div _) (hmade.div _)).bind ?_
  rintro _ _ ⟨rfl, rfl⟩
  exact (narrowIntoQuotients hy fun _ => Interval.div_inside hrz.2 hrz.1 hrx.1).bind
    fun _ _ _ => pure trivial

end Action.Follows

namespace Propagator
variable {t : ValueType} [t.Lawful] {p : Propagator t}

/-- Running an arithmetic propagator is monotone. -/
theorem Arithmetic.monotone (hp : p.Arithmetic) :
    p.propagate.Follows p.vars p.propagate fun _ _ => True := by
  have narrows {x : VarId} {n : Narrowing t} (hx : x ∈ p.vars) (hn : n.Accepted) :
      (do let _ ← narrowVar x n; return () : Action (Store t) Unit).Follows p.vars
        (do let _ ← narrowVar x n; return ()) fun _ _ => True :=
    (Action.Follows.narrowVar hx hn hn fun _ _ => id).bind fun _ _ _ => .pure trivial
  cases p with
  | plus x y z =>
    exact .propagateSum (by simp) (by simp) (by simp)
  | times x y z =>
    exact .propagateProduct (by simp) (by simp) (by simp)
  | lessThan x bound =>
    exact narrows (by simp) (Narrowing.convex_atMost _).toAccepted
  | greaterThan x bound =>
    exact narrows (by simp) (Narrowing.convex_atLeast _).toAccepted
  | notEqual x excluded =>
    exact narrows (by simp) (Narrowing.accepted_outside _ _)
  | cumulative tasks capacity => exact absurd hp id
  | script body => exact absurd hp id

end Propagator
end FiniteDomains
