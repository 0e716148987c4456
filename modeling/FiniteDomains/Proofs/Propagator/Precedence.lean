import FiniteDomains.Proofs.Propagator.Overload
import Mathlib.Algebra.Order.BigOperators.Group.List

/-! Keeping tasks apart loses no schedule. Let the tasks use at most the capacity at any time under
an assignment of values of the store. Then each test on the current bounds shows a precedence of two
tasks that really holds, also where a sum was clamped at the end of the universe, and each narrowing
keeps the assigned start. -/
namespace FiniteDomains
variable {t : ValueType} {α β : Type}

/-- A reading succeeds, with a property of what is read. -/
def Gives (reading : Except Fault α) (P : α → Prop) : Prop := ∃ a, reading = .ok a ∧ P a

theorem Gives.pure {P : α → Prop} {a : α} (h : P a) : Gives (Pure.pure a) P := ⟨a, rfl, h⟩

theorem Gives.bind {reading : Except Fault α} {next : α → Except Fault β} {P : α → Prop}
    {Q : β → Prop} (h : Gives reading P) (hnext : ∀ a, P a → Gives (next a) Q) :
    Gives (reading >>= next) Q := by
  obtain ⟨a, rfl, ha⟩ := h
  exact hnext a ha

theorem Gives.imp {reading : Except Fault α} {P Q : α → Prop} (h : Gives reading P)
    (hP : ∀ a, P a → Q a) : Gives reading Q := by
  obtain ⟨a, ha, hp⟩ := h
  exact ⟨a, ha, hP a hp⟩

/-- Where an invariant holds an action succeeds, and the invariant holds afterwards. -/
def Action.Maintains (I : Store t → Prop) (action : Action (Store t) α) (P : α → Prop) : Prop :=
  ∀ s, I s → ∃ s' a, action s = .done s' a ∧ I s' ∧ P a

namespace Action.Maintains
variable {I : Store t → Prop}

theorem pure {P : α → Prop} {a : α} (h : P a) :
    (Pure.pure a : Action (Store t) α).Maintains I P :=
  fun s hs => ⟨s, a, rfl, hs, h⟩

theorem bind {action : Action (Store t) α} {next : α → Action (Store t) β} {P : α → Prop}
    {Q : β → Prop} (h : action.Maintains I P) (hnext : ∀ a, P a → (next a).Maintains I Q) :
    (action >>= next).Maintains I Q := by
  intro s hs
  obtain ⟨s₁, a, hout, hs₁, ha⟩ := h s hs
  obtain ⟨s₂, b, hout', hs₂, hb⟩ := hnext a ha s₁ hs₁
  refine ⟨s₂, b, ?_, hs₂, hb⟩
  simp only [Bind.bind, hout, Outcome.andThen, hout']

theorem reading {f : Store t → Except Fault α} {P : α → Prop} (h : ∀ s, I s → Gives (f s) P) :
    (Action.reading f).Maintains I P := by
  intro s hs
  obtain ⟨a, ha, hp⟩ := h s hs
  exact ⟨s, a, Action.Tightens.reading_ok ha, hs, hp⟩

theorem ite {p : Prop} [Decidable p] {action other : Action (Store t) α} {P : α → Prop}
    (h : action.Maintains I P) (h' : other.Maintains I P) :
    (if p then action else other).Maintains I P := by
  split
  · exact h
  · exact h'

theorem onlyIf {test : Store t → Except Fault Bool} {action : Action (Store t) Unit} {P : Prop}
    (htest : ∀ s, I s → Gives (test s) fun holds => holds = true → P)
    (h : P → action.Maintains I fun _ => True) :
    (Action.onlyIf test action).Maintains I fun _ => True := by
  refine (reading htest).bind fun holds hp => ?_
  split
  · next hholds => exact h (hp hholds)
  · exact pure trivial

end Action.Maintains

/-! ### Bounds around assigned values -/

namespace Store
variable {s : Store t} {xs : List VarId} {σ : VarId → Int} {x : VarId}

/-- A regular store that has the given variables and admits an assignment. -/
structure Supports (xs : List VarId) (σ : VarId → Int) (s : Store t) : Prop extends s.Regular where
  has : s.Has xs
  admits : s.Admits σ

theorem Supports.boundedBy (h : s.Supports xs σ) (hx : x ∈ xs) : ∃ r : Interval,
    s.lowerBound x = .ok r.lo ∧ s.upperBound x = .ok r.hi ∧ σ x ∈ r ∧
      r.EndsIn t.Admissible := by
  obtain ⟨v, hv⟩ := h.has x hx
  obtain ⟨r, hr⟩ := h.toWellFormed.boundedBy hv
  have hmem := h.admits x v hv
  have huniverse := h.inUniverse hv
  exact ⟨r, hr.lower, hr.upper, ⟨hr.least.2 hmem, hr.greatest.2 hmem⟩,
    huniverse _ hr.least.1, huniverse _ hr.greatest.1⟩

theorem Supports.assigned (h : s.Supports xs σ) (hx : x ∈ xs) : t.Admissible (σ x) := by
  obtain ⟨r, -, -, hmem, hends⟩ := h.boundedBy hx
  exact hends.of_mem hmem

theorem Supports.lowerBound (h : s.Supports xs σ) (hx : x ∈ xs) :
    Gives (s.lowerBound x) fun lo => t.Admissible lo ∧ lo ≤ σ x := by
  obtain ⟨r, hlower, -, hmem, hends⟩ := h.boundedBy hx
  exact ⟨r.lo, hlower, hends.lo, hmem.1⟩

theorem Supports.upperBound (h : s.Supports xs σ) (hx : x ∈ xs) :
    Gives (s.upperBound x) fun hi => t.Admissible hi ∧ σ x ≤ hi := by
  obtain ⟨r, -, hupper, hmem, hends⟩ := h.boundedBy hx
  exact ⟨r.hi, hupper, hends.hi, hmem.2⟩

end Store

theorem Action.Maintains.narrowVar [t.Lawful] {xs : List VarId} {σ : VarId → Int} {x : VarId}
    {n : Narrowing t} (hn : n.Accepted) (hx : x ∈ xs) (hkeeps : n.Keeps (σ x)) :
    (narrowVar x n).Maintains (Store.Supports xs σ) fun _ => True := by
  intro s hs
  obtain ⟨v, hv⟩ := hs.has x hx
  obtain ⟨s', change, hout, hadmits, hshrunk⟩ := hs.narrow_admits hs.admits hv hn hkeeps
  exact ⟨s', change, hout, ⟨hshrunk.regular hs.toRegular, hshrunk.tighter.has hs.has, hadmits⟩,
    trivial⟩

/-! ### Precedences -/

/-- One placement is complete before the other one starts. -/
def Placement.Before (p q : Placement) : Prop := p.finish ≤ q.start

theorem Placement.Before.clamp_le {p q : Placement} (h : p.Before q) (hq : t.Admissible q.start) :
    t.clamp p.finish ≤ q.start :=
  (ValueType.clamp_le_clamp h).trans_eq (ValueType.clamp_eq hq)

namespace Task
variable {σ : VarId → Int} {task other : Task} {tasks : List Task} {capacity time : Int}

/-- An assignment under which no task uses a negative amount, and all of them together use at most
the capacity at any time. -/
structure Schedules (σ : VarId → Int) (tasks : List Task) (capacity : Int) : Prop where
  resource_nonneg : ∀ task ∈ tasks, 0 ≤ σ task.resource
  usage_le : ∀ time, usage σ tasks time ≤ capacity

theorem pair_le_usage (hnonneg : ∀ task ∈ tasks, 0 ≤ σ task.resource)
    (htask : task ∈ running σ tasks time) (hother : other ∈ running σ tasks time)
    (hne : other ≠ task) : σ task.resource + σ other.resource ≤ usage σ tasks time := by
  have hnodup : [task, other].Nodup := by simpa using Ne.symm hne
  have hsubset : [task, other] ⊆ running σ tasks time := by simp [htask, hother]
  obtain ⟨rest, hperm, hsub⟩ := hnodup.subperm hsubset
  have hsum : ([task, other].map fun task => (task.placement σ).resource).sum ≤
      usage σ tasks time := by
    rw [usage_eq, ← (hperm.map _).sum_eq]
    refine (hsub.map _).sum_le_sum fun amount hamount => ?_
    obtain ⟨task, htask, rfl⟩ := List.mem_map.mp hamount
    exact hnonneg task (mem_running.mp htask).1
  simpa [placement] using hsum

theorem Schedules.apart [t.Lawful] (h : Schedules σ tasks capacity) (htask : task ∈ tasks)
    (hother : other ∈ tasks) (hne : other ≠ task) (hlong : 0 < σ task.duration)
    (hlong' : 0 < σ other.duration)
    (hmuch : capacity < t.clamp (σ task.resource + σ other.resource)) :
    (task.placement σ).Before (other.placement σ) ∨
      (other.placement σ).Before (task.placement σ) := by
  by_contra hnot
  obtain ⟨time, hruns, hruns'⟩ : ∃ time, (task.placement σ).RunsAt time ∧
      (other.placement σ).RunsAt time := by
    refine (Placement.exists_runsAt_iff hlong hlong').mpr ?_
    simp only [Placement.Before] at hnot
    omega
  have husage := h.usage_le time
  have hpair := pair_le_usage h.resource_nonneg (mem_running.mpr ⟨htask, hruns⟩)
    (mem_running.mpr ⟨hother, hruns'⟩) hne
  have hnonneg := h.resource_nonneg task htask
  have hnonneg' := h.resource_nonneg other hother
  have hclamp : t.clamp (σ task.resource + σ other.resource) ≤
      σ task.resource + σ other.resource := ValueType.clamp_le_self (by omega)
  omega

/-! ### What the tests show -/

section
variable {s : Store t} {xs : List VarId} (h : s.Supports xs σ) (htask : task.vars ⊆ xs)
include h htask

theorem gives_earliestStart : Gives (task.earliestStart s) fun start =>
    t.Admissible start ∧ start ≤ σ task.start :=
  h.lowerBound (htask (by simp [vars]))

theorem gives_latestStart : Gives (task.latestStart s) fun start =>
    t.Admissible start ∧ σ task.start ≤ start :=
  h.upperBound (htask (by simp [vars]))

theorem gives_leastDuration : Gives (task.leastDuration s) fun duration =>
    t.Admissible duration ∧ duration ≤ σ task.duration :=
  h.lowerBound (htask (by simp [vars]))

theorem gives_leastResource : Gives (task.leastResource s) fun resource =>
    t.Admissible resource ∧ resource ≤ σ task.resource :=
  h.lowerBound (htask (by simp [vars]))

theorem start_admissible : t.Admissible (σ task.start) := h.assigned (htask (by simp [vars]))

theorem duration_admissible : t.Admissible (σ task.duration) :=
  h.assigned (htask (by simp [vars]))

variable [t.Lawful]

theorem clamp_finish :
    t.clampedAdd (σ task.start) (σ task.duration) = t.clamp (task.placement σ).finish :=
  ValueType.clampedAdd_eq (start_admissible h htask) (duration_admissible h htask)

theorem gives_earliestCompletion : Gives (task.earliestCompletion s) fun completion =>
    completion ≤ t.clamp (task.placement σ).finish := by
  refine (gives_earliestStart h htask).bind fun start hstart =>
    (gives_leastDuration h htask).bind fun duration hduration => .pure ?_
  rw [← clamp_finish h htask]
  exact ValueType.clampedAdd_mono hstart.1 (start_admissible h htask) hduration.1
    (duration_admissible h htask) hstart.2 hduration.2

theorem gives_latestCompletion : Gives (task.latestCompletion s) fun completion =>
    t.Admissible completion ∧ t.clamp (task.placement σ).finish ≤ completion := by
  have hupper : Gives (s.upperBound task.duration) fun duration =>
      t.Admissible duration ∧ σ task.duration ≤ duration :=
    h.upperBound (htask (by simp [vars]))
  refine (gives_latestStart h htask).bind fun start hstart =>
    hupper.bind fun duration hduration => .pure ⟨?_, ?_⟩
  · rw [ValueType.clampedAdd_eq hstart.1 hduration.1]
    exact ValueType.clamp_admissible _
  · rw [← clamp_finish h htask]
    exact ValueType.clampedAdd_mono (start_admissible h htask) hstart.1
      (duration_admissible h htask) hduration.1 hstart.2 hduration.2

variable (hother : other.vars ⊆ xs)
include hother

theorem gives_neverTogether (capacity : Int) : Gives (neverTogether capacity task other s)
    fun holds => holds = true → 0 < σ task.duration ∧ 0 < σ other.duration ∧
      capacity < t.clamp (σ task.resource + σ other.resource) := by
  refine (gives_leastDuration h htask).bind fun duration hduration =>
    (gives_leastDuration h hother).bind fun duration' hduration' =>
      (gives_leastResource h htask).bind fun resource hresource =>
        (gives_leastResource h hother).bind fun resource' hresource' => .pure fun holds => ?_
  rw [Bool.and_eq_true, Bool.and_eq_true, decide_eq_true_eq, decide_eq_true_eq,
    decide_eq_true_eq, ValueType.clampedAdd_eq hresource.1 hresource'.1] at holds
  obtain ⟨⟨hlong, hlong'⟩, hmuch⟩ := holds
  exact ⟨hlong.trans_le hduration.2, hlong'.trans_le hduration'.2,
    hmuch.trans_le (ValueType.clamp_le_clamp (Int.add_le_add hresource.2 hresource'.2))⟩

theorem gives_tooLongBefore (hlong : 0 < σ task.duration) (hlong' : 0 < σ other.duration) :
    Gives (tooLongBefore task other s) fun holds =>
      holds = true → ¬(task.placement σ).Before (other.placement σ) := by
  -- No sum of durations gets longer by being clamped.
  refine (gives_leastDuration h htask).bind fun duration hduration =>
    (gives_leastDuration h hother).bind fun duration' hduration' =>
      (gives_earliestStart h htask).bind fun start hstart =>
        (gives_earliestStart h hother).bind fun start' hstart' =>
          (gives_latestCompletion h hother).bind fun latest hlatest => .pure fun holds => ?_
  intro hbefore
  have hmin : t.Admissible (min start start') :=
    ⟨le_min hstart.1.1 hstart'.1.1, (min_le_left _ _).trans hstart.1.2⟩
  have hboth : t.clampedAdd duration duration' ≤ σ task.duration + σ other.duration := by
    rw [ValueType.clampedAdd_eq hduration.1 hduration'.1]
    exact (ValueType.clamp_le_clamp (Int.add_le_add hduration.2 hduration'.2)).trans
      (ValueType.clamp_le_self (by omega))
  have hclamped : t.Admissible (t.clampedAdd duration duration') := by
    rw [ValueType.clampedAdd_eq hduration.1 hduration'.1]
    exact ValueType.clamp_admissible _
  have hfits : min start start' + t.clampedAdd duration duration' ≤
      (other.placement σ).finish := by
    have hfirst := (min_le_left start start').trans hstart.2
    simp only [Placement.Before, Placement.finish, placement] at hbefore ⊢
    omega
  rw [decide_eq_true_eq, ValueType.clampedAdd_eq hmin hclamped] at holds
  exact absurd ((ValueType.clamp_le_clamp hfits).trans hlatest.2) (Int.not_le.mpr holds)

theorem gives_cannotPrecede : Gives (cannotPrecede task other s) fun holds =>
    holds = true → ¬(task.placement σ).Before (other.placement σ) := by
  refine (gives_earliestCompletion h htask).bind fun completion hcompletion =>
    (gives_latestStart h hother).bind fun start hstart => .pure fun holds hbefore => ?_
  have hle : completion ≤ start :=
    hcompletion.trans ((hbefore.clamp_le (start_admissible h hother)).trans hstart.2)
  exact absurd (of_decide_eq_true holds) (Int.not_lt.mpr hle)

end

/-! ### What the narrowings keep -/

section
variable [t.Lawful] {xs : List VarId} (htask : task.vars ⊆ xs)
include htask

theorem startFrom_maintains {earliest : Int} (hle : earliest ≤ σ task.start) :
    (task.startFrom (t := t) earliest).Maintains (Store.Supports xs σ) fun _ => True := by
  refine (Action.Maintains.reading fun s h => gives_earliestStart h htask).bind fun start _ => ?_
  exact .ite (.narrowVar (Narrowing.convex_atLeast earliest).toAccepted
    (htask (by simp [vars])) hle) (.pure trivial)

theorem completeBy_maintains {latest : Int} (hlatest : t.Admissible latest)
    (hlong : 0 < σ task.duration) (hle : (task.placement σ).finish ≤ latest) :
    (task.completeBy (t := t) latest).Maintains (Store.Supports xs σ) fun _ => True := by
  -- The latest start is the exact one or lies at the end of the universe.
  have hlimit (s : Store t) (h : s.Supports xs σ) : Gives (task.leastDuration s) fun duration =>
      σ task.start ≤ t.clampedSub latest duration := by
    refine (gives_leastDuration h htask).imp fun duration hduration => ?_
    have hadmissible := duration_admissible h htask
    have hbalanced := hadmissible.balanced (Int.le_of_lt hlong)
    have hexact : σ task.start ≤ latest - σ task.duration := by
      simp only [Placement.finish, placement] at hle
      omega
    calc σ task.start = t.clamp (σ task.start) :=
          (ValueType.clamp_eq (start_admissible h htask)).symm
      _ ≤ t.clamp (latest - σ task.duration) := ValueType.clamp_le_clamp hexact
      _ = t.clampedSub latest (σ task.duration) :=
          (ValueType.clampedSub_eq hlatest hbalanced).symm
      _ ≤ t.clampedSub latest duration := ValueType.clampedSub_mono hlatest hlatest hadmissible
          hduration.1 (Int.le_refl _) hduration.2
  refine (Action.Maintains.reading hlimit).bind fun duration hkeeps =>
    (Action.Maintains.reading fun s h => gives_latestStart h htask).bind fun start _ => ?_
  exact .ite (.narrowVar (Narrowing.convex_atMost _).toAccepted
    (htask (by simp [vars])) hkeeps) (.pure trivial)

variable (hother : other.vars ⊆ xs)
include hother

theorem startAfter_maintains (hbefore : (other.placement σ).Before (task.placement σ)) :
    (startAfter (t := t) task other).Maintains (Store.Supports xs σ) fun _ => True := by
  -- The completion of the other task is no later than the start of the task, and clamping it leaves
  -- that so.
  have hcompletion (s : Store t) (h : s.Supports xs σ) :
      Gives (other.earliestCompletion s) fun completion => completion ≤ σ task.start :=
    (gives_earliestCompletion h hother).imp fun completion hle =>
      hle.trans (hbefore.clamp_le (start_admissible h htask))
  exact (Action.Maintains.reading hcompletion).bind fun completion hle =>
    (startFrom_maintains htask hle).bind fun _ _ => .pure trivial

theorem completeBefore_maintains (hlong : 0 < σ task.duration)
    (hbefore : (task.placement σ).Before (other.placement σ)) :
    (completeBefore (t := t) task other).Maintains (Store.Supports xs σ) fun _ => True :=
  (Action.Maintains.reading fun _ h => gives_latestStart h hother).bind fun _ hstart =>
    (completeBy_maintains htask hstart.1 hlong (hbefore.trans hstart.2)).bind
      fun _ _ => .pure trivial

theorem separate_maintains (hlong : 0 < σ task.duration) (hlong' : 0 < σ other.duration)
    (hapart : (task.placement σ).Before (other.placement σ) ∨
      (other.placement σ).Before (task.placement σ)) :
    (separate (t := t) task other).Maintains (Store.Supports xs σ) fun _ => True := by
  -- Each test rules out one of the two orders, so the narrowing behind it is by the other one.
  have hafter (hnot : ¬(task.placement σ).Before (other.placement σ)) :=
    startAfter_maintains (t := t) htask hother (hapart.resolve_left hnot)
  have hbefore (hnot : ¬(other.placement σ).Before (task.placement σ)) :=
    completeBefore_maintains (t := t) htask hother hlong (hapart.resolve_right hnot)
  refine (Action.Maintains.onlyIf
    (fun _ h => gives_tooLongBefore h htask hother hlong hlong') hafter).bind fun _ _ => ?_
  refine (Action.Maintains.onlyIf
    (fun s h => gives_cannotPrecede h htask hother) hafter).bind fun _ _ => ?_
  exact .onlyIf (fun s h => gives_cannotPrecede h hother htask) hbefore

end

/-! ### Runs over the tasks -/

section
variable [t.Lawful] {xs : List VarId} {others rest : List Task}

theorem separateFrom_maintains (h : Schedules σ tasks capacity)
    (hvars : ∀ task ∈ tasks, task.vars ⊆ xs) (htask : task ∈ tasks) (hothers : others ⊆ tasks) :
    (separateFrom (t := t) capacity task others).Maintains (Store.Supports xs σ)
      fun _ => True := by
  induction others with
  | nil => exact .pure trivial
  | cons other others ih =>
    obtain ⟨hother, hrest⟩ := List.cons_subset.mp hothers
    have hcontinue := ih hrest
    rw [separateFrom]
    split
    · exact hcontinue
    · next hne =>
      refine (Action.Maintains.onlyIf
        (fun s hs => gives_neverTogether hs (hvars _ htask) (hvars _ hother) capacity) ?_).bind
          fun _ _ => hcontinue
      rintro ⟨hlong, hlong', hmuch⟩
      exact separate_maintains (hvars _ htask) (hvars _ hother) hlong hlong'
        (h.apart htask hother hne hlong hlong' hmuch)

theorem separateAll_maintains (h : Schedules σ tasks capacity)
    (hvars : ∀ task ∈ tasks, task.vars ⊆ xs) (hrest : rest ⊆ tasks) :
    (separateAll (t := t) tasks capacity rest).Maintains (Store.Supports xs σ) fun _ => True := by
  induction rest with
  | nil => exact .pure trivial
  | cons task rest ih =>
    obtain ⟨htask, hrest⟩ := List.cons_subset.mp hrest
    exact (separateFrom_maintains h hvars htask (List.Subset.refl _)).bind fun _ _ => ih hrest

end

end Task
/-! ### The propagator -/

namespace Propagator
variable {s s' : Store t} {σ : VarId → Int} {tasks : List Task} {capacity : Int}

theorem checkOverload_done (h : checkOverload tasks capacity s = .done s' ()) : s' = s := by
  obtain ⟨s₁, windows, hread, hrest⟩ := Action.Tightens.bind_done h
  obtain ⟨-, rfl⟩ := Action.Tightens.reading_done hread
  split at hrest
  · cases hrest
  · cases hrest
    rfl

/-- Keeping the tasks of a schedule apart succeeds and loses none of its values. So the propagator
for a shared resource does so too once it has found no overload, even where the schedule reaches
beyond the end of the universe. -/
theorem separation_keeps_schedules [t.Lawful] (hs : s.Regular)
    (hx : s.Has (cumulative tasks capacity : Propagator t).vars) (hσ : s.Admits σ)
    (h : Task.Schedules σ tasks capacity) :
    ∃ s', separateAll tasks capacity tasks s = .done s' () ∧ s.Shrunk s' ∧ s'.Admits σ ∧
      ∀ s₁, checkOverload tasks capacity s = .done s₁ () →
        (cumulative tasks capacity : Propagator t).propagate s = .done s' () := by
  have hvars : ∀ task ∈ tasks, task.vars ⊆ (cumulative tasks capacity : Propagator t).vars :=
    fun _ hmem => task_vars_subset hmem capacity
  obtain ⟨s', ⟨⟩, hout, hsupports, -⟩ :=
    Task.separateAll_maintains h hvars (List.Subset.refl _) s ⟨hs, hx, hσ⟩
  have htight := separateAll_tightens (t := t) (F := fun _ => False) hvars hvars capacity
  have hshrunk := htight.shrunk hs.toWellFormed hx hout
  refine ⟨s', hout, hshrunk, hsupports.admits, fun s₁ hcheck => ?_⟩
  obtain rfl : s₁ = s := checkOverload_done hcheck
  simp only [propagate, propagateCumulative, bind, hcheck, Outcome.andThen, hout]

/-- A task of the greatest length at time zero, and another one with a start of any value from zero
on. -/
def lateStore : Store .int32 where
  vars := [
    ⟨0, ⟨.intervals [⟨0, 0⟩], 0, .empty, .empty, false⟩, []⟩,
    ⟨1, ⟨.intervals [⟨536870909, 536870909⟩], 0, .empty, .empty, false⟩, []⟩,
    ⟨2, ⟨.intervals [⟨2, 2⟩], 0, .empty, .empty, false⟩, []⟩,
    ⟨3, ⟨.intervals [⟨0, 536870909⟩], 0, .empty, .empty, false⟩, []⟩,
    ⟨4, ⟨.intervals [⟨5, 5⟩], 0, .empty, .empty, false⟩, []⟩]
  level := 0
  trail := []
  woken := .empty
  names := .empty
  options := .standard

def lateTasks : List Task := [⟨0, 1, 2⟩, ⟨3, 4, 2⟩]

def lateValues : VarId → Int
  | 0 => 0
  | 1 => 536870909
  | 2 => 2
  | 3 => 536870909
  | _ => 5

theorem lateStore_regular : lateStore.Regular := by
  refine Store.regular_root rfl rfl ?_ ?_
  · simp [lateStore, Variable.stamp, Variable.values, Domain.Consistent, Runs.Consistent,
      Domain.isEmpty]
  · simp only [lateStore, Store.Within, Variable.values, List.forall_mem_cons,
      Domain.forall_mem_intervals, Interval.mem_mk, ValueType.admissible_int32]
    and_intros <;> grind

theorem lateStore_admits : lateStore.Admits lateValues := by
  refine Store.forall_getElem? ?_
  decide +kernel

/-- The second task can only start at the greatest value, and is complete beyond the universe. -/
theorem separation_keeps_schedules_late :
    lateStore.Regular ∧ lateStore.Has (cumulative lateTasks 3 : Propagator .int32).vars ∧
      lateStore.Admits lateValues ∧ Task.Schedules lateValues lateTasks 3 ∧
      checkOverload lateTasks 3 lateStore = .done lateStore () ∧
      ∃ s', (cumulative lateTasks 3 : Propagator .int32).propagate lateStore = .done s' () ∧
        s'.lowerBound 3 = .ok 536870909 ∧ s'.Admits lateValues := by
  have hhas : lateStore.Has (cumulative lateTasks 3 : Propagator .int32).vars := by decide
  have hschedules : Task.Schedules lateValues lateTasks 3 := by
    refine ⟨by decide, fun time => ?_⟩
    simp only [Task.usage, lateTasks, lateValues, List.filter_cons, List.filter_nil]
    split_ifs with hfirst hsecond
    · simp only [Bool.and_eq_true, decide_eq_true_eq] at hfirst hsecond
      omega
    · decide
    · decide
    · decide
  have hcheck : checkOverload lateTasks 3 lateStore = .done lateStore () := by decide +kernel
  obtain ⟨s', -, -, hadmits, hpropagates⟩ :=
    separation_keeps_schedules lateStore_regular hhas lateStore_admits hschedules
  have hout := hpropagates _ hcheck
  refine ⟨lateStore_regular, hhas, lateStore_admits, hschedules, hcheck, s', hout, ?_, hadmits⟩
  have hstart : ((cumulative lateTasks 3 : Propagator .int32).propagate lateStore).left?.map
      (fun s => s.lowerBound 3) = some (.ok 536870909) := by
    decide +kernel
  rw [hout] at hstart
  exact Option.some_inj.mp hstart

end Propagator
end FiniteDomains
