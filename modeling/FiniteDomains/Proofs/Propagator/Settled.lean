import FiniteDomains.Proofs.Propagator.Builtin

/-! Propagators that have nothing more to do. A change either leaves such a propagator with nothing
to do or wakes it, and so do the changes that a propagator makes itself. -/
namespace FiniteDomains

namespace Store
variable {t : ValueType} {s s' : Store t} {x : VarId} {v v' : Variable t} {xs : List VarId}

def domains (s : Store t) : List (Domain t) := s.vars.map Variable.values

theorem domains_getElem? (s : Store t) (x : VarId) :
    s.domains[x]? = (s.vars[x]?).map Variable.values := List.getElem?_map

theorem alikeOn_of_ends (hx : s.Has xs) (h : ∀ x ∈ xs, ∀ v, s.vars[x]? = some v →
    ∃ v', s'.vars[x]? = some v' ∧ v'.values.min? = v.values.min? ∧
      v'.values.max? = v.values.max?) : AlikeOn xs s s' := by
  intro x hmem
  obtain ⟨v, hv⟩ := hx x hmem
  obtain ⟨v', hv', hmin, hmax⟩ := h x hmem v hv
  have hdomain : s.domain x = .ok v.values := by
    simp [domain, var, hv, bind, Except.bind, pure, Except.pure]
  have hdomain' : s'.domain x = .ok v'.values := by
    simp [domain, var, hv', bind, Except.bind, pure, Except.pure]
  simp only [lowerBound, upperBound, hdomain, hdomain', bind, Except.bind, hmin, hmax, and_self]

theorem alikeOn_of_domains (hx : s.Has xs) (h : s'.domains = s.domains) : AlikeOn xs s s' := by
  refine alikeOn_of_ends hx fun x _ v hv => ?_
  have heq := s'.domains_getElem? x
  rw [h, domains_getElem?, hv] at heq
  obtain ⟨v', hv', hvalues⟩ := Option.map_eq_some_iff.mp heq.symm
  exact ⟨v', hv', by rw [hvalues], by rw [hvalues]⟩

theorem cardinality_of_domains (h : s'.domains = s.domains) : s'.cardinality = s.cardinality := by
  have hmap := congrArg (List.map Domain.cardinality) h
  simp only [domains, List.map_map] at hmap
  rw [cardinality_eq, cardinality_eq]
  exact congrArg List.sum hmap

theorem Shrunk.eq_of_domains (hs : s.Shrunk s') (h : s.WellFormed)
    (hdom : s'.domains = s.domains) : s' = s := by
  rcases hs.eq_or_cardinality_lt h with heq | hlt
  · exact heq
  · rw [cardinality_of_domains hdom] at hlt
    exact absurd hlt (Nat.lt_irrefl _)

end Store

namespace Propagator
variable {t : ValueType} {p : Propagator t} {s s' : Store t} {x y z : VarId} {v : Variable t}
variable {c : ConstraintId} {bound excluded : Int}

/-- The propagators of the library, which are not given by a script. -/
def Builtin : Propagator t → Prop
  | .script _ => False
  | _ => True

/-- The faults that a run may end in: sums and products can come to inverted ends. -/
def Mistakes : Propagator t → Fault → Prop
  | .plus .. | .times .. => Fault.Malformed
  | _ => fun _ => False

def vars (p : Propagator t) : List VarId := p.subscriptions.map Prod.fst

@[simp] theorem vars_plus : (plus x y z : Propagator t).vars = [x, y, z] := rfl

@[simp] theorem vars_times : (times x y z : Propagator t).vars = [x, y, z] := rfl

@[simp] theorem vars_lessThan : (lessThan x bound : Propagator t).vars = [x] := rfl

@[simp] theorem vars_greaterThan : (greaterThan x bound : Propagator t).vars = [x] := rfl

@[simp] theorem vars_notEqual : (notEqual x excluded : Propagator t).vars = [x] := rfl

/-- Running a propagator succeeds and changes no domain. -/
def Settled (p : Propagator t) (s : Store t) : Prop :=
  ∃ s', p.propagate s = .done s' () ∧ s'.domains = s.domains

/-- The id waits for all the changes that a propagator subscribes to. -/
def Registered (p : Propagator t) (c : ConstraintId) (s : Store t) : Prop :=
  ∀ subscription ∈ p.subscriptions, s.Subscribed c subscription.1 subscription.2

instance (p : Propagator t) (c : ConstraintId) (s : Store t) : Decidable (p.Registered c s) :=
  List.decidableBAll _ _

theorem Registered.has (h : p.Registered c s) : s.Has p.vars := by
  intro x hx
  obtain ⟨subscription, hmem, rfl⟩ := List.mem_map.mp hx
  obtain ⟨v, hv, -⟩ := h subscription hmem
  exact ⟨v, hv⟩

theorem Registered.tighter (h : p.Registered c s) (ht : s.Tighter s') : p.Registered c s' :=
  fun subscription hmem => ht.subscribed (h subscription hmem)

/-! ### Excluding a value -/

theorem notEqual_done : (notEqual x excluded : Propagator t).propagate s = .done s' () ↔
    ∃ change, s.narrow x (.outside excluded excluded) = .done s' change := by
  constructor
  · intro hout
    obtain ⟨s₁, change, hnarrow, hrest⟩ := Action.Tightens.bind_done hout
    cases hrest
    exact ⟨change, hnarrow⟩
  · rintro ⟨change, hnarrow⟩
    simp only [propagate, bind, narrowVar, hnarrow, Outcome.andThen]
    rfl

variable [t.Lawful]

theorem notEqual_ends (h : s.WellFormed) (hv : s.vars[x]? = some v) :
    ((notEqual x excluded).propagate s).Ends (fun s' _ => s.Shrunk s') s.Shrunk := by
  have hends := h.narrow_shrunk_ends hv (Narrowing.accepted_outside excluded excluded)
  exact hends.andThen (fun _ _ hs => hs) fun _ hs => hs

theorem notEqual_self_iff (h : s.Regular) (hv : s.vars[x]? = some v) :
    (notEqual x excluded).propagate s = .done s () ↔ excluded ∉ v.values := by
  rw [notEqual_done]
  have hself (change : Change) :
      s.narrow x (.outside excluded excluded) = .done s change ↔
        change = .unchanged ∧ ∀ w ∈ v.values, ¬(excluded ≤ w ∧ w ≤ excluded) :=
    h.narrow_self_iff hv (Narrowing.accepted_outside excluded excluded)
  constructor
  · rintro ⟨change, hnarrow⟩ hmem
    exact ((hself change).mp hnarrow).2 excluded hmem ⟨Int.le_refl _, Int.le_refl _⟩
  · intro hout
    refine ⟨.unchanged, (hself .unchanged).mpr ⟨rfl, fun w hw hin => hout ?_⟩⟩
    rwa [Int.le_antisymm hin.1 hin.2]

theorem notEqual_settled_iff (h : s.Regular) (hv : s.vars[x]? = some v) :
    (notEqual x excluded).Settled s ↔ excluded ∉ v.values := by
  rw [← notEqual_self_iff h hv]
  constructor
  · rintro ⟨s', hout, hdom⟩
    have hshrunk := (notEqual_ends h.toWellFormed hv).done hout
    obtain rfl := hshrunk.eq_of_domains h.toWellFormed hdom
    exact hout
  · intro hout
    exact ⟨s, hout, rfl⟩

theorem notEqual_settled_tighter (h : s.Regular) (h' : s'.Regular) (hv : s.vars[x]? = some v)
    (ht : s.Tighter s') (hset : (notEqual x excluded).Settled s) :
    (notEqual x excluded).Settled s' := by
  obtain ⟨v', hv', -, -, hsub⟩ := ht.var x v hv
  rw [notEqual_settled_iff h hv] at hset
  exact (notEqual_settled_iff h' hv').mpr fun hin => hset (hsub _ hin)

theorem notEqual_after (h : s.Regular) (hv : s.vars[x]? = some v)
    (hout : (notEqual x excluded).propagate s = .done s' ()) :
    (notEqual x excluded).propagate s' = .done s' () := by
  obtain ⟨change, hnarrow⟩ := notEqual_done.mp hout
  rcases Store.narrow_done (n := .outside excluded excluded) h.toWellFormed hv trivial trivial
      hnarrow with ⟨d, -, -, rfl, -⟩ | ⟨d, hd, hpart, rfl, -⟩
  · exact hout
  · have hstep := Store.Shrinks.at x v d hv hpart
    have hv' : (s.narrowed x v d).vars[x]? = some (v.setValues s.level d) := by
      rw [Store.narrowed_getElem? hv, if_pos rfl]
    refine (notEqual_self_iff (hstep.shrunk.regular h) hv').mpr ?_
    rw [Variable.setValues_values, hd.mem]
    rintro ⟨-, hkeeps⟩
    exact hkeeps ⟨Int.le_refl _, Int.le_refl _⟩

/-! ### All propagators -/

omit [t.Lawful] in
theorem task_vars_subset {task : Task} {tasks : List Task} (h : task ∈ tasks) (capacity : Int) :
    task.vars ⊆ (cumulative tasks capacity : Propagator t).vars := by
  intro x hx
  simp only [vars, subscriptions, List.mem_map, List.mem_flatMap]
  exact ⟨(x, .bound), ⟨task, h, by simpa [Task.vars] using hx⟩, rfl⟩

/-- Every propagator narrows bounds by bounds, or it excludes a value. -/
theorem Builtin.cases (hp : p.Builtin) :
    (p.propagate.Tightens p.Mistakes p.vars ∧ ∀ x ∈ p.vars, (x, Trigger.bound) ∈ p.subscriptions) ∨
      ∃ x excluded, p = notEqual x excluded := by
  cases p with
  | plus x y z =>
    refine .inl ⟨?_, by simp [subscriptions]⟩
    exact propagateSum_tightens (by simp) (by simp) (by simp)
  | times x y z =>
    refine .inl ⟨?_, by simp [subscriptions]⟩
    exact propagateProduct_tightens (by simp) (by simp) (by simp)
  | lessThan x bound =>
    refine .inl ⟨?_, by simp [subscriptions]⟩
    have hx : x ∈ (lessThan x bound : Propagator t).vars := by simp
    exact (Action.Tightens.narrowVar hx (Narrowing.convex_atMost _)).bind fun _ => .pure ()
  | greaterThan x bound =>
    refine .inl ⟨?_, by simp [subscriptions]⟩
    have hx : x ∈ (greaterThan x bound : Propagator t).vars := by simp
    exact (Action.Tightens.narrowVar hx (Narrowing.convex_atLeast _)).bind fun _ => .pure ()
  | notEqual x excluded => exact .inr ⟨x, excluded, rfl⟩
  | cumulative tasks capacity =>
    refine .inl ⟨?_, ?_⟩
    · exact propagateCumulative_tightens (fun task hmem => task_vars_subset hmem capacity) capacity
    · intro x hx
      simp only [vars, subscriptions, List.mem_map, List.mem_flatMap] at hx
      obtain ⟨⟨y, trigger⟩, ⟨task, hmem, hsub⟩, rfl⟩ := hx
      simp only [subscriptions, List.mem_flatMap]
      refine ⟨task, hmem, ?_⟩
      simp only [List.mem_cons, Prod.mk.injEq, List.not_mem_nil, or_false] at hsub
      rcases hsub with ⟨rfl, -⟩ | ⟨rfl, -⟩ | ⟨rfl, -⟩ <;> simp
  | script body => exact absurd hp id

theorem Builtin.ends_unless (hp : p.Builtin) (h : s.WellFormed) (hx : s.Has p.vars) :
    (p.propagate s).EndsUnless p.Mistakes (fun s' _ => s.Shrunk s') s.Shrunk := by
  rcases hp.cases with ⟨htight, -⟩ | ⟨x, excluded, rfl⟩
  · exact htight.ends s h hx
  · obtain ⟨v, hv⟩ := hx x (by simp)
    exact (notEqual_ends h hv).unless

omit [t.Lawful] in
theorem Mistakes.malformed {cause : Fault} (h : p.Mistakes cause) : cause.Malformed := by
  cases p with
  | plus | times => exact h
  | _ => exact absurd h id

theorem Builtin.ends (hp : p.Builtin) (h : s.WellFormed) (hneg : s.Within t.Negatable)
    (hx : s.Has p.vars) : (p.propagate s).Ends (fun s' _ => s.Shrunk s') s.Shrunk := by
  have hends := hp.ends_unless h hx
  cases p with
  | plus x y z =>
    have hyields := Action.Yields.propagateSum (x := x) (y := y) (z := z) (by simp) (by simp)
      (by simp) s h hneg hx
    exact hyields.imp (fun _ _ hs => hs.1) fun _ hs => hs
  | times x y z =>
    have hyields := Action.Yields.propagateProduct (x := x) (y := y) (z := z) (by simp) (by simp)
      (by simp) s h hneg hx
    exact hyields.imp (fun _ _ hs => hs.1) fun _ hs => hs
  | lessThan | greaterThan | notEqual | cumulative => exact hends.ends
  | script => exact absurd hp id

theorem Builtin.shrunk (hp : p.Builtin) (h : s.WellFormed) (hx : s.Has p.vars)
    (hout : p.propagate s = .done s' ()) : s.Shrunk s' :=
  (hp.ends_unless h hx).done hout

theorem Builtin.settled_iff (hp : p.Builtin) (h : s.WellFormed) (hx : s.Has p.vars) :
    p.Settled s ↔ p.propagate s = .done s () := by
  constructor
  · rintro ⟨s', hout, hdom⟩
    obtain rfl := (hp.shrunk h hx hout).eq_of_domains h hdom
    exact hout
  · intro hout
    exact ⟨s, hout, rfl⟩

theorem Builtin.settled_of_domains (hp : p.Builtin) (h : s.Regular) (h' : s'.Regular)
    (hx : s.Has p.vars) (hx' : s'.Has p.vars) (hdom : s'.domains = s.domains)
    (hset : p.Settled s) : p.Settled s' := by
  rw [hp.settled_iff h.toWellFormed hx] at hset
  rw [hp.settled_iff h'.toWellFormed hx']
  rcases hp.cases with ⟨htight, -⟩ | ⟨x, excluded, rfl⟩
  · exact htight.quiet s s' () h h' hx hx' (Store.alikeOn_of_domains hx hdom) hset
  · have hmem : x ∈ (notEqual x excluded : Propagator t).vars := by simp
    obtain ⟨v, hv⟩ := hx x hmem
    obtain ⟨v', hv'⟩ := hx' x hmem
    have heq := s'.domains_getElem? x
    rw [hdom, Store.domains_getElem?, hv, hv', Option.map_some, Option.map_some,
      Option.some_inj] at heq
    rw [notEqual_self_iff h hv, heq] at hset
    exact (notEqual_self_iff h' hv').mpr hset

/-- A change leaves a settled propagator settled, or it wakes it. -/
theorem Builtin.settled_or_woken (hp : p.Builtin) (h : s.Regular) (hreg : p.Registered c s)
    (hs : s.Shrinks s') (hset : p.Settled s) : p.Settled s' ∨ c ∈ s'.woken.waiting := by
  have h' := hs.shrunk.regular h
  have hx := hreg.has
  have hx' := hs.tighter.has hx
  rcases hp.cases with ⟨htight, hbound⟩ | ⟨x, excluded, rfl⟩
  · rw [hp.settled_iff h.toWellFormed hx] at hset
    rw [hp.settled_iff h'.toWellFormed hx']
    obtain ⟨y, v, d, hv, hd⟩ := hs
    -- a change that moves no end of a variable of the propagator is invisible to it
    by_cases hsame : y ∈ p.vars → d.min? = v.values.min? ∧ d.max? = v.values.max?
    · have halike : Store.AlikeOn p.vars s (s.narrowed y v d) := by
        refine Store.alikeOn_of_ends hx fun x hmem u hu => ?_
        rw [Store.narrowed_getElem? hv]
        by_cases hxy : x = y
        · subst hxy
          obtain rfl : u = v := Option.some_inj.mp (hu.symm.trans hv)
          obtain ⟨hmin, hmax⟩ := hsame hmem
          exact ⟨_, if_pos rfl, by simpa using hmin, by simpa using hmax⟩
        · exact ⟨u, by rw [if_neg hxy, hu], rfl, rfl⟩
      exact .inl (htight.quiet s _ () h h' hx hx' halike hset)
    · simp only [Classical.not_imp, not_and_or] at hsame
      exact .inr (Store.wakes_on_bound hv hd (hreg _ (hbound y hsame.1)) hsame.2)
  · obtain ⟨v, hv⟩ := hx x (by simp)
    exact .inl (notEqual_settled_tighter h h' hv hs.tighter hset)

theorem Builtin.settled_after (hp : p.Builtin) (h : s.Regular) (hreg : p.Registered c s)
    (hout : p.propagate s = .done s' ()) : p.Settled s' ∨ c ∈ s'.woken.waiting := by
  have hshrunk := hp.shrunk h.toWellFormed hreg.has hout
  have h' := hshrunk.regular h
  rw [hp.settled_iff h'.toWellFormed (hshrunk.tighter.has hreg.has)]
  rcases hp.cases with ⟨htight, hbound⟩ | ⟨x, excluded, rfl⟩
  · have hsub : ∀ x ∈ p.vars, s.Subscribed c x .bound := fun x hx => hreg _ (hbound x hx)
    rcases htight.wakes s s' () c h hsub hout with rfl | hc
    · exact .inl hout
    · exact .inr hc
  · obtain ⟨v, hv⟩ := hreg.has x (by simp)
    exact .inl (notEqual_after h hv hout)

/-- A propagator that is not settled fails or wakes itself, unless it excludes a value. -/
theorem Builtin.fails_or_wakes (hp : p.Builtin) (h : s.Regular) (hreg : p.Registered c s)
    (hne : ∀ x excluded, p ≠ notEqual x excluded) (hset : ¬p.Settled s) :
    (p.propagate s).Ends (fun s' _ => c ∈ s'.woken.waiting) fun _ => True := by
  have hends := hp.ends h.toWellFormed h.negatable hreg.has
  rcases hp.cases with ⟨htight, hbound⟩ | ⟨x, excluded, rfl⟩
  · have hsub : ∀ x ∈ p.vars, s.Subscribed c x .bound := fun x hx => hreg _ (hbound x hx)
    cases hout : p.propagate s with
    | done s' result =>
      rcases htight.wakes s s' result c h hsub hout with rfl | hc
      · exact absurd ⟨s', hout, rfl⟩ hset
      · exact hc
    | emptied => trivial
    | fault cause => exact absurd hout (hends.ne_fault cause)
  · exact absurd rfl (hne x excluded)

end Propagator
end FiniteDomains
