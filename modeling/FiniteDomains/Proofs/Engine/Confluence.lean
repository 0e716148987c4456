import FiniteDomains.Proofs.Engine.Retention
import FiniteDomains.Proofs.Engine.Sessions
import FiniteDomains.Proofs.Propagator.Monotone

/-! Propagation has one result. Posting propagators one after the other ends at their greatest fixed
point below the domains there were, or it fails because there is none. Neither says anything about
an order, so the order in which they are posted and run does not matter. -/
namespace FiniteDomains.Engine
variable {t : ValueType} {e e' e₁ : Engine t} {p : Propagator t} {ps qs : List (Propagator t)}
variable {s s₀ s₁ : Store t}

def postAll (e : Engine t) : List (Propagator t) → Outcome (Engine t) Unit
  | [] => .done e ()
  | p :: ps => (e.post p).andThen fun e _ => e.postAll ps

/-- Domains below those of another store that all propagators leave unchanged. -/
structure FixedPoint (ps : List (Propagator t)) (s s₀ : Store t) : Prop where
  regular : s₀.Regular
  below : s₀.Below s
  settled : ∀ p ∈ ps, p.Settled s₀

/-- A fixed point that has the values of all others. -/
structure GreatestFixedPoint (ps : List (Propagator t)) (s s₁ : Store t) : Prop extends
    FixedPoint ps s s₁ where
  greatest : ∀ s₀, FixedPoint ps s s₀ → s₀.Below s₁

/-- An engine at the root that has come to rest after posting arithmetic propagators. -/
structure Resting (e : Engine t) : Prop extends e.Covered where
  settled : e.AllSettled
  root : e.store.level = 0
  arithmetic : ∀ p ∈ e.propagators, p.Arithmetic

theorem Fresh.resting (h : e.Fresh) : e.Resting :=
  ⟨h.allSettled.covered h.tracked, h.allSettled, h.root, by simp [h.unposted]⟩

theorem FixedPoint.subset (h : FixedPoint ps s s₀) (hsub : qs ⊆ ps) : FixedPoint qs s s₀ :=
  ⟨h.regular, h.below, fun p hp => h.settled p (hsub hp)⟩

theorem fixedPoint_perm (hperm : ps.Perm qs) : FixedPoint ps s s₀ ↔ FixedPoint qs s s₀ :=
  ⟨fun h => h.subset hperm.symm.subset, fun h => h.subset hperm.subset⟩

theorem GreatestFixedPoint.congr {s' : Store t} (h : GreatestFixedPoint ps s s₁)
    (hiff : ∀ s₀, FixedPoint ps s s₀ ↔ FixedPoint qs s' s₀) : GreatestFixedPoint qs s' s₁ :=
  ⟨(hiff s₁).mp h.toFixedPoint, fun s₀ h₀ => h.greatest s₀ ((hiff s₀).mpr h₀)⟩

theorem GreatestFixedPoint.unique {s₂ : Store t} (h₁ : GreatestFixedPoint ps s s₁)
    (h₂ : GreatestFixedPoint ps s s₂) (x : VarId) (w : Int) :
    s₁.HasValue x w ↔ s₂.HasValue x w :=
  ⟨(h₂.greatest s₁ h₁.toFixedPoint).subset x w, (h₁.greatest s₂ h₂.toFixedPoint).subset x w⟩

theorem FirstRun.below (h : e.FirstRun p e₁) : e₁.store.Below e.store := by
  obtain ⟨s, henroll, hs⟩ := h.shrunk
  exact hs.tighter.below.trans (Store.below_of_domains henroll.domains)

variable [t.Lawful]

theorem Iterates.below (hi : e.Iterates e') (h : e.Proper) : e'.store.Below e.store := by
  obtain ⟨c, rest, -, hs⟩ := hi.shrunk h.steady
  have hpopped : e.popped.store.Below e.store := Store.below_of_domains rfl
  exact hs.tighter.below.trans hpopped

theorem Runs.below (hr : e.Runs e') (h : e.Proper) : e'.store.Below e.store := by
  induction hr with
  | refl => exact .refl _
  | tail hrun hi ih => exact (hi.below (Runs.proper hrun h)).trans ih

theorem Settles.below (hs : e.Settles e') (h : e.Proper) : e'.store.Below e.store := by
  obtain ⟨e₁, runs, hruns, -, rfl⟩ := hs
  exact hruns.below h

/-! ### Posting one propagator -/

theorem FixedPoint.retainedBy (h : FixedPoint ps s s₀) (hps : ∀ p ∈ ps, p.Arithmetic) :
    RetainedBy ps fun s' => s'.Within t.Admissible ∧ s₀.Below s' where
  admissible := fun _ hs => hs.1
  of_domains := fun _ _ hdom hs =>
    ⟨Store.within_of_domains hdom hs.1, hs.2.trans (Store.below_of_domains hdom.symm)⟩
  run := by
    intro p hp s' hwf hx hs
    have hx₀ := hs.2.has hx
    have hquiet : p.propagate s₀ = .done s₀ () :=
      ((hps p hp).builtin.settled_iff h.regular.toWellFormed hx₀).mp (h.settled p hp)
    have hinside : Store.Inside p.vars s₀ s' := ⟨hs.2, h.regular, ⟨hwf, hs.1⟩, hx₀⟩
    obtain ⟨s'', r, hout, hinside', -⟩ := (hps p hp).monotone s₀ s' s₀ () hinside hquiet
    exact ⟨s'', hout, hinside'.outer.admissible, hinside'.toBelow⟩

theorem Resting.post (h : e.Resting) (hp : p.Arithmetic) (hx : e.store.Has p.vars) :
    (e.post p).Ends (fun e₁ _ => e₁.Resting ∧ e₁.propagators = e.propagators ++ [p] ∧
      e₁.store.Below e.store) fun _ => True := by
  refine (h.toCovered.post_first h.root hp.builtin hx).imp ?_ fun _ => id
  rintro e₂ c ⟨-, e₁, hfirst, hsettles⟩
  have hproper := hfirst.covered.toProper
  have hsame : e₂.propagators = e.propagators ++ [p] :=
    hsettles.propagators.trans hfirst.propagators
  refine ⟨⟨hsettles.covered hfirst.covered, hsettles.allSettled hfirst.covered,
    (hsettles.level hproper).trans hfirst.root, fun q hq => ?_⟩, hsame,
    (hsettles.below hproper).trans hfirst.below⟩
  rw [hsame] at hq
  rcases List.mem_append.mp hq with hq | hq
  · exact h.arithmetic q hq
  · obtain rfl := List.mem_singleton.mp hq
    exact hp

theorem Resting.post_above (h : e.Resting) (hp : p.Arithmetic) (hx : e.store.Has p.vars)
    (h₀ : FixedPoint (e.propagators ++ [p]) e.store s₀) :
    ∃ e', e.post p = .done e' e.propagators.length ∧ s₀.Below e'.store := by
  have hps : ∀ q ∈ e.propagators ++ [p], q.Arithmetic := by
    simpa [or_imp, forall_and] using And.intro h.arithmetic hp
  rcases h.toProper.post_retains (h₀.retainedBy hps) ⟨h.admissible, h₀.below⟩ h.root hp.builtin hx
    with ⟨e', hdone, h'⟩ | ⟨-, hfault⟩
  · exact ⟨e', hdone, h'.holds.2⟩
  · exact absurd hfault ((h.toCovered.post_ends h.root hp.builtin hx).ne_fault _)

theorem Resting.fixedPoint_iff (h : e.Resting) (hp : p.Arithmetic) (hx : e.store.Has p.vars)
    {c : ConstraintId} (hout : e.post p = .done e₁ c) (hsub : e.propagators ++ [p] ⊆ ps) :
    FixedPoint ps e₁.store s₀ ↔ FixedPoint ps e.store s₀ := by
  constructor
  · intro h₀
    obtain ⟨-, -, hbelow⟩ := (h.post hp hx).done hout
    exact ⟨h₀.regular, h₀.below.trans hbelow, h₀.settled⟩
  · intro h₀
    obtain ⟨e', hdone, hbelow⟩ := h.post_above hp hx (h₀.subset hsub)
    obtain rfl : e₁ = e' := (Outcome.done.inj (hout.symm.trans hdone)).1
    exact ⟨h₀.regular, hbelow, h₀.settled⟩

/-! ### Posting them all -/

/-- Posting in turn ends at the greatest fixed point of all propagators, or there is none. -/
theorem Resting.postAll_ends (h : e.Resting)
    (hps : ∀ p ∈ ps, p.Arithmetic ∧ e.store.Has p.vars) :
    (e.postAll ps).Ends
      (fun e' _ => GreatestFixedPoint (e.propagators ++ ps) e.store e'.store)
      fun _ => ∀ s, ¬FixedPoint (e.propagators ++ ps) e.store s := by
  induction ps generalizing e with
  | nil =>
    rw [List.append_nil]
    exact ⟨⟨h.regular, .refl _, h.settled⟩, fun s₀ h₀ => h₀.below⟩
  | cons p ps ih =>
    obtain ⟨hp, hx⟩ := hps p List.mem_cons_self
    have happend : e.propagators ++ p :: ps = e.propagators ++ [p] ++ ps := by simp
    have hsub := List.subset_append_left (e.propagators ++ [p]) ps
    have hends := h.post hp hx
    rw [happend]
    simp only [postAll]
    cases hout : e.post p with
    | done e₁ c =>
      obtain ⟨h₁, hsame, hbelow⟩ := hends.done hout
      have hrest := ih h₁ fun q hq =>
        ⟨(hps q (List.mem_cons_of_mem _ hq)).1, hbelow.has (hps q (List.mem_cons_of_mem _ hq)).2⟩
      rw [hsame] at hrest
      have hiff (s₀ : Store t) : FixedPoint (e.propagators ++ [p] ++ ps) e₁.store s₀ ↔
          FixedPoint (e.propagators ++ [p] ++ ps) e.store s₀ := h.fixedPoint_iff hp hx hout hsub
      exact hrest.imp (fun _ _ h' => h'.congr hiff) fun _ hnone s₀ h₀ => hnone s₀ ((hiff s₀).mpr h₀)
    | emptied e₁ =>
      intro s₀ h₀
      obtain ⟨e', hdone, -⟩ := h.post_above hp hx (h₀.subset hsub)
      cases hout.symm.trans hdone
    | fault cause => exact absurd hout (hends.ne_fault cause)

theorem Fresh.postAll_ends (h : e.Fresh) (hps : ∀ p ∈ ps, p.Arithmetic ∧ e.store.Has p.vars) :
    (e.postAll ps).Ends (fun e' _ => GreatestFixedPoint ps e.store e'.store)
      fun _ => ∀ s, ¬FixedPoint ps e.store s := by
  have hends := h.resting.postAll_ends hps
  rwa [h.unposted] at hends

/-- The order in which propagators are posted does not matter. In all orders some posting fails,
where they have no fixed point below the domains there are, or they all end with the same values in
every variable, which are those of the greatest one. -/
theorem posting_order_irrelevant (h : e.Fresh)
    (hps : ∀ p ∈ ps, p.Arithmetic ∧ e.store.Has p.vars) (hperm : ps.Perm qs) :
    (∃ e₁ e₂, e.postAll ps = .done e₁ () ∧ e.postAll qs = .done e₂ () ∧
      (∀ x w, e₁.store.HasValue x w ↔ e₂.store.HasValue x w) ∧
      GreatestFixedPoint ps e.store e₁.store ∧ GreatestFixedPoint ps e.store e₂.store) ∨
    (∃ e₁ e₂, e.postAll ps = .emptied e₁ ∧ e.postAll qs = .emptied e₂) ∧
      ∀ s, ¬FixedPoint ps e.store s := by
  have hends := h.postAll_ends hps
  have hends' := (h.postAll_ends fun q hq => hps q (hperm.mem_iff.mpr hq)).imp
    (fun _ _ h' => h'.congr fun _ => (fixedPoint_perm hperm).symm)
    fun _ hnone s hs => hnone s ((fixedPoint_perm hperm).mp hs)
  cases hout : e.postAll ps with
  | done e₁ result =>
    have h₁ := hends.done hout
    cases hout' : e.postAll qs with
    | done e₂ result' =>
      have h₂ := hends'.done hout'
      exact .inl ⟨e₁, e₂, rfl, rfl, h₁.unique h₂, h₁, h₂⟩
    | emptied e₂ => exact absurd h₁.toFixedPoint (hends'.emptied hout' _)
    | fault cause => exact absurd hout' (hends'.ne_fault cause)
  | emptied e₁ =>
    have hnone := hends.emptied hout
    cases hout' : e.postAll qs with
    | done e₂ result' => exact absurd (hends'.done hout').toFixedPoint (hnone _)
    | emptied e₂ => exact .inr ⟨⟨e₁, e₂, rfl, rfl⟩, hnone⟩
    | fault cause => exact absurd hout' (hends'.ne_fault cause)
  | fault cause => exact absurd hout (hends.ne_fault cause)

/-- An engine with a check of fixed points, where the first variable has gaps. -/
def gappedEngine : Engine .int32 := ⟨sumStore (.sparse [0, 2, 3, 9]) .empty [], [], true, []⟩

/-- A number is the sum and the product of two others. -/
def orderedPosts : List (Propagator .int32) :=
  [.plus 0 1 2, .notEqual 1 0, .times 0 1 2, .lessThan 2 6]

def reorderedPosts : List (Propagator .int32) :=
  [.lessThan 2 6, .times 0 1 2, .plus 0 1 2, .notEqual 1 0]

theorem gappedEngine_fresh : gappedEngine.Fresh where
  regular := by
    have hadm : gappedEngine.store.Within ValueType.int32.Admissible := by
      simp only [gappedEngine, sumStore, Store.Within, Variable.values, List.forall_mem_cons,
        Domain.forall_mem_intervals, Domain.forall_mem_sparse, Interval.mem_mk,
        ValueType.admissible_int32]
      and_intros <;> grind
    refine Store.regular_root rfl rfl ?_ hadm
    simp [gappedEngine, sumStore, Variable.stamp, Variable.values, Domain.Consistent,
      Runs.Consistent, Points.Consistent, Domain.isEmpty]
  root := rfl
  unregistered := rfl
  unwoken := rfl
  unposted := rfl

theorem posting_order_irrelevant_sum : gappedEngine.Fresh ∧
    (∀ p ∈ orderedPosts, p.Arithmetic ∧ gappedEngine.store.Has p.vars) ∧
    orderedPosts.Perm reorderedPosts ∧
    ∃ e₁ e₂, gappedEngine.postAll orderedPosts = .done e₁ () ∧
      gappedEngine.postAll reorderedPosts = .done e₂ () ∧
      (∀ x w, e₁.store.HasValue x w ↔ e₂.store.HasValue x w) ∧
      GreatestFixedPoint orderedPosts gappedEngine.store e₁.store := by
  have hps : ∀ p ∈ orderedPosts, p.Arithmetic ∧ gappedEngine.store.Has p.vars := by
    intro p hp
    simp only [orderedPosts, List.mem_cons, List.not_mem_nil, or_false] at hp
    rcases hp with rfl | rfl | rfl | rfl <;> exact ⟨by trivial, by decide⟩
  have hperm : orderedPosts.Perm reorderedPosts := by decide
  have hdone : (match gappedEngine.postAll orderedPosts with
      | .done _ _ => true | _ => false) = true := by
    decide +kernel
  refine ⟨gappedEngine_fresh, hps, hperm, ?_⟩
  rcases posting_order_irrelevant gappedEngine_fresh hps hperm with
    ⟨e₁, e₂, h₁, h₂, hsame, hgreatest, -⟩ | ⟨⟨e₁, -, hfails, -⟩, -⟩
  · exact ⟨e₁, e₂, h₁, h₂, hsame, hgreatest⟩
  · rw [hfails] at hdone
    cases hdone

end FiniteDomains.Engine
