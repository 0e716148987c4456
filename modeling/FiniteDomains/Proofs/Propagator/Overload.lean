import FiniteDomains.Proofs.Propagator.Fixed
import FiniteDomains.Proofs.Store.Requests

/-! What the narrowing of tasks on a shared resource comes to when all of them are placed. It
changes nothing, and it fails exactly if there is a window from the start of a task to the
completion of a task that holds more energy than the capacity yields there, or if two tasks that run
at the same time use more than the capacity. So it finds every overload by two tasks, or by any
number that run over the same time; an overload by three tasks that overlap in part can pass. -/
namespace FiniteDomains
variable {t : ValueType} {α β : Type}

/-- On a store an action changes nothing: it succeeds if a property holds, and fails if not. -/
structure Action.Decides (s : Store t) (action : Action (Store t) α) (P : Prop) : Prop where
  passes : P → ∃ a, action s = .done s a
  fails : ¬P → action s = .emptied s

namespace Action.Decides
variable {s : Store t} {P Q : Prop} {action : Action (Store t) α}

theorem congr (h : action.Decides s P) (hiff : P ↔ Q) : action.Decides s Q := by
  rwa [← hiff]

theorem pure (a : α) : (Pure.pure a : Action (Store t) α).Decides s True where
  passes := fun _ => ⟨a, rfl⟩
  fails := fun hnot => absurd trivial hnot

theorem failing : (Action.failing : Action (Store t) α).Decides s False where
  passes := False.elim
  fails := fun _ => rfl

theorem bind {next : α → Action (Store t) β} (h : action.Decides s P)
    (hnext : ∀ a, (next a).Decides s Q) : (action >>= next).Decides s (P ∧ Q) where
  passes := by
    rintro ⟨hp, hq⟩
    obtain ⟨a, ha⟩ := h.passes hp
    obtain ⟨b, hb⟩ := (hnext a).passes hq
    exact ⟨b, by simp only [Bind.bind, ha, Outcome.andThen, hb]⟩
  fails := by
    intro hnot
    by_cases hp : P
    · obtain ⟨a, ha⟩ := h.passes hp
      have hb := (hnext a).fails fun hq => hnot ⟨hp, hq⟩
      simp only [Bind.bind, ha, Outcome.andThen, hb]
    · simp only [Bind.bind, h.fails hp, Outcome.andThen]

theorem reading {f : Store t → Except Fault α} {a : α} {next : α → Action (Store t) β}
    (hf : f s = .ok a) (h : (next a).Decides s P) :
    (Action.reading f >>= next).Decides s P := by
  have hrun : (Action.reading f >>= next) s = next a s := by
    simp only [Bind.bind, Action.Tightens.reading_ok hf, Outcome.andThen]
  exact ⟨by rw [hrun]; exact h.passes, by rw [hrun]; exact h.fails⟩

theorem ite {p : Prop} [Decidable p] {other : Action (Store t) α} (h : p → action.Decides s P)
    (h' : ¬p → other.Decides s Q) :
    (if p then action else other).Decides s ((p → P) ∧ (¬p → Q)) := by
  split
  · next hp => exact (h hp).congr (by tauto)
  · next hp => exact (h' hp).congr (by tauto)

theorem guarding {p : Prop} [Decidable p] (h : p → action.Decides s False) (a : α) :
    (if p then action else Pure.pure a).Decides s ¬p :=
  (ite h fun _ => pure a).congr (by tauto)

theorem onlyIf {test : Store t → Except Fault Bool} {action : Action (Store t) Unit} {b : Bool}
    (htest : test s = .ok b) (h : b = true → action.Decides s P) :
    (Action.onlyIf test action).Decides s (b = true → P) :=
  reading htest ((ite h fun _ => pure ()).congr (by tauto))

end Action.Decides

/-! ### Placed tasks -/

/-- A start, a duration and an amount of the resource. -/
structure Placement where
  start : Int
  duration : Int
  resource : Int
  deriving DecidableEq, Repr

namespace Placement

def finish (p : Placement) : Int := p.start + p.duration

def energy (p : Placement) : Int := p.duration * p.resource

/-- The window that the placement leaves to its task. -/
def window (t : ValueType) (p : Placement) : TaskWindow := ⟨p.start, p.finish, t.clamp p.energy⟩

def RunsAt (p : Placement) (time : Int) : Prop := p.start ≤ time ∧ time < p.finish

def Inside (p : Placement) (start finish : Int) : Prop := start ≤ p.start ∧ p.finish ≤ finish

instance (p : Placement) (time : Int) : Decidable (p.RunsAt time) :=
  inferInstanceAs (Decidable (_ ∧ _))

instance (p : Placement) (start finish : Int) : Decidable (p.Inside start finish) :=
  inferInstanceAs (Decidable (_ ∧ _))

/-- Two placements run at one time and use more than the capacity, in clamped arithmetic. -/
def Clash (t : ValueType) (capacity : Int) (p q : Placement) : Prop :=
  (∃ time, p.RunsAt time ∧ q.RunsAt time) ∧ capacity < t.clamp (p.resource + q.resource)

theorem RunsAt.duration_pos {p : Placement} {time : Int} (h : p.RunsAt time) : 0 < p.duration := by
  simp only [RunsAt, finish] at h
  omega

theorem exists_runsAt_iff {p q : Placement} (hp : 0 < p.duration) (hq : 0 < q.duration) :
    (∃ time, p.RunsAt time ∧ q.RunsAt time) ↔ p.start < q.finish ∧ q.start < p.finish := by
  simp only [RunsAt, finish]
  constructor
  · rintro ⟨time, hp, hq⟩
    omega
  · intro h
    exact ⟨max p.start q.start, by omega, by omega⟩

end Placement

/-- The variables of a task hold a placement in the universe that is complete there. -/
structure Task.PlacedAt (task : Task) (s : Store t) (p : Placement) : Prop where
  start : s.FixedAt task.start p.start
  duration : s.FixedAt task.duration p.duration
  resource : s.FixedAt task.resource p.resource
  start_admissible : t.Admissible p.start
  duration_admissible : t.Admissible p.duration
  resource_admissible : t.Admissible p.resource
  duration_nonneg : 0 ≤ p.duration
  resource_nonneg : 0 ≤ p.resource
  finish_le : p.finish ≤ t.maxValue

namespace Task.PlacedAt
variable {s : Store t} {task other : Task} {p q : Placement} {capacity : Int}

theorem finish_admissible (hp : task.PlacedAt s p) : t.Admissible p.finish := by
  have hmin := hp.start_admissible.1
  have hlong := hp.duration_nonneg
  exact ⟨by simp only [Placement.finish]; omega, hp.finish_le⟩

theorem energy_nonneg (hp : task.PlacedAt s p) : 0 ≤ p.energy :=
  Int.mul_nonneg hp.duration_nonneg hp.resource_nonneg

/-! ### Readings -/

theorem earliestStart (hp : task.PlacedAt s p) (hs : s.WellFormed) :
    task.earliestStart s = .ok p.start := hp.start.lower hs

theorem latestStart (hp : task.PlacedAt s p) (hs : s.WellFormed) :
    task.latestStart s = .ok p.start := hp.start.upper hs

theorem leastDuration (hp : task.PlacedAt s p) (hs : s.WellFormed) :
    task.leastDuration s = .ok p.duration := hp.duration.lower hs

theorem leastResource (hp : task.PlacedAt s p) (hs : s.WellFormed) :
    task.leastResource s = .ok p.resource := hp.resource.lower hs

variable [t.Lawful]

theorem completion_eq (hp : task.PlacedAt s p) : t.clampedAdd p.start p.duration = p.finish := by
  rw [ValueType.clampedAdd_eq hp.start_admissible hp.duration_admissible]
  exact ValueType.clamp_eq hp.finish_admissible

theorem earliestCompletion (hp : task.PlacedAt s p) (hs : s.WellFormed) :
    task.earliestCompletion s = .ok p.finish := by
  simp only [Task.earliestCompletion, hp.earliestStart hs, hp.leastDuration hs, bind, Except.bind,
    pure, Except.pure, hp.completion_eq]

theorem latestCompletion (hp : task.PlacedAt s p) (hs : s.WellFormed) :
    task.latestCompletion s = .ok p.finish := by
  simp only [Task.latestCompletion, hp.latestStart hs, hp.duration.upper hs, bind, Except.bind,
    pure, Except.pure, hp.completion_eq]

theorem window (hp : task.PlacedAt s p) (hs : s.WellFormed) :
    task.window s = .ok (p.window t) := by
  simp only [Task.window, Task.energy, hp.earliestStart hs, hp.latestCompletion hs,
    hp.leastDuration hs, hp.leastResource hs, bind, Except.bind, pure, Except.pure,
    ValueType.clampedMul_eq, Placement.window, Placement.energy]

theorem length_le (hp : task.PlacedAt s p) : t.clampedSub p.finish p.start ≤ p.duration := by
  calc t.clampedSub p.finish p.start ≤ t.clamp (p.finish - p.start) :=
        ValueType.clampedSub_le hp.finish_admissible hp.start_admissible
    _ = t.clamp p.duration := by rw [Placement.finish, add_sub_cancel_left]
    _ = p.duration := ValueType.clamp_eq hp.duration_admissible

/-! ### Keeping two tasks apart -/

theorem startFrom_decides (hp : task.PlacedAt s p) (hs : s.WellFormed) (earliest : Int) :
    (task.startFrom earliest).Decides s (earliest ≤ p.start) := by
  refine .reading (hp.earliestStart hs) ?_
  have hlost (hlt : p.start < earliest) :
      Action.Decides s (fun s => s.narrow task.start (.atLeast earliest)) False := by
    refine ⟨False.elim, fun _ => ?_⟩
    exact hp.start.narrow_lost hs hp.start_admissible (Narrowing.convex_atLeast _).toAccepted
      (by simp only [Narrowing.Keeps]; omega)
  exact (Action.Decides.guarding hlost _).congr Int.not_lt

theorem completeBy_decides (hp : task.PlacedAt s p) (hs : s.WellFormed) {latest : Int}
    (hlatest : t.Admissible latest) :
    (task.completeBy latest).Decides s (p.start ≤ t.clamp (latest - p.duration)) := by
  refine .reading (hp.leastDuration hs) (.reading (hp.latestStart hs) ?_)
  have hlong := hp.duration_admissible.balanced hp.duration_nonneg
  simp only [ValueType.clampedSub_eq hlatest hlong]
  have hlost (hlt : t.clamp (latest - p.duration) < p.start) : Action.Decides s
      (fun s => s.narrow task.start (.atMost (t.clamp (latest - p.duration)))) False := by
    refine ⟨False.elim, fun _ => ?_⟩
    exact hp.start.narrow_lost hs hp.start_admissible (Narrowing.convex_atMost _).toAccepted
      (by simp only [Narrowing.Keeps]; omega)
  exact (Action.Decides.guarding hlost _).congr Int.not_lt

section
variable (hp : task.PlacedAt s p) (hq : other.PlacedAt s q) (hs : s.WellFormed)
include hp hq hs

theorem neverTogether : neverTogether capacity task other s =
    .ok (decide (0 < p.duration) && decide (0 < q.duration)
      && decide (capacity < t.clamp (p.resource + q.resource))) := by
  simp only [FiniteDomains.neverTogether, hp.leastDuration hs, hq.leastDuration hs,
    hp.leastResource hs, hq.leastResource hs, bind, Except.bind, pure, Except.pure,
    ValueType.clampedAdd_eq hp.resource_admissible hq.resource_admissible]

theorem tooLongBefore : tooLongBefore task other s = .ok (decide (q.finish <
    t.clampedAdd (min p.start q.start) (t.clamp (p.duration + q.duration)))) := by
  simp only [FiniteDomains.tooLongBefore, hp.leastDuration hs, hq.leastDuration hs,
    hp.earliestStart hs, hq.earliestStart hs, hq.latestCompletion hs, bind, Except.bind, pure,
    Except.pure, ValueType.clampedAdd_eq hp.duration_admissible hq.duration_admissible]

theorem cannotPrecede : cannotPrecede task other s = .ok (decide (q.start < p.finish)) := by
  simp only [FiniteDomains.cannotPrecede, hp.earliestCompletion hs, hq.latestStart hs, bind,
    Except.bind, pure, Except.pure]

theorem startAfter_decides : (startAfter task other).Decides s (q.finish ≤ p.start) :=
  (Action.Decides.reading (hq.earliestCompletion hs)
    ((hp.startFrom_decides hs _).bind fun _ => .pure _)).congr (and_iff_left trivial)

theorem completeBefore_decides :
    (completeBefore task other).Decides s (p.start ≤ t.clamp (q.start - p.duration)) :=
  (Action.Decides.reading (hq.latestStart hs)
    ((hp.completeBy_decides hs hq.start_admissible).bind fun _ => .pure _)).congr
      (and_iff_left trivial)

theorem separate_decides (hlong : 0 < p.duration) (hlong' : 0 < q.duration) :
    (separate task other).Decides s ¬∃ time, p.RunsAt time ∧ q.RunsAt time := by
  -- The second test alone finds the tasks that overlap; the others pass what does not.
  have hafter := hp.startAfter_decides hq hs
  have hbefore := hp.completeBefore_decides hq hs
  refine ((Action.Decides.onlyIf (hp.tooLongBefore hq hs) fun _ => hafter).bind fun _ =>
    (Action.Decides.onlyIf (hp.cannotPrecede hq hs) fun _ => hafter).bind fun _ =>
      Action.Decides.onlyIf (hq.cannotPrecede hp hs) fun _ => hbefore).congr ?_
  simp only [decide_eq_true_eq]
  rw [Placement.exists_runsAt_iff hlong hlong']
  have hmin := hp.start_admissible
  have hmin' := hq.start_admissible
  have hmax := hp.finish_le
  have hmax' := hq.finish_le
  have hfirst : t.Admissible (min p.start q.start) :=
    ⟨le_min hmin.1 hmin'.1, (min_le_left _ _).trans hmin.2⟩
  rw [ValueType.clampedAdd_eq hfirst (ValueType.clamp_admissible _)]
  obtain ⟨hlow, -⟩ := hmin
  obtain ⟨hlow', -⟩ := hmin'
  obtain ⟨hlow'', -⟩ := hp.duration_admissible
  simp only [ValueType.clamp]
  simp only [Placement.finish] at hmax hmax' ⊢
  constructor
  · rintro ⟨-, hsecond, -⟩ ⟨hstart, hstart'⟩
    have := hsecond hstart'
    omega
  · intro hapart
    -- The first test holds of the earlier task only if clamping has made the durations longer,
    -- and clamping makes no sum of durations longer.
    refine ⟨fun hshort => ?_, fun _ => by omega, fun _ => by omega⟩
    by_contra hnot
    omega

end

end Task.PlacedAt

/-! ### Schedules -/

namespace Task
variable {s : Store t} {σ : VarId → Int} {task other : Task} {tasks others : List Task}
variable {capacity time start finish : Int}

def placement (σ : VarId → Int) (task : Task) : Placement :=
  ⟨σ task.start, σ task.duration, σ task.resource⟩

/-- The energy of the tasks that are placed between two times. -/
def energyBetween (σ : VarId → Int) (tasks : List Task) (start finish : Int) : Int :=
  ((tasks.filter fun task => (task.placement σ).Inside start finish).map fun task =>
    (task.placement σ).energy).sum

def running (σ : VarId → Int) (tasks : List Task) (time : Int) : List Task :=
  tasks.filter fun task => (task.placement σ).RunsAt time

/-- The tasks between two times need no more energy than the capacity yields, in clamped
arithmetic. -/
def FitBetween (t : ValueType) (σ : VarId → Int) (tasks : List Task) (capacity start finish : Int) :
    Prop :=
  t.clamp (energyBetween σ tasks start finish) ≤
    t.clampedMul capacity (t.clampedSub finish start)

instance (t : ValueType) (σ : VarId → Int) (tasks : List Task) (capacity start finish : Int) :
    Decidable (FitBetween t σ tasks capacity start finish) :=
  inferInstanceAs (Decidable (_ ≤ _))

/-- All windows from a start to a completion offer the energy needed there, and no two different
tasks clash. -/
structure Fit (t : ValueType) (σ : VarId → Int) (tasks : List Task) (capacity : Int) : Prop where
  windows : ∀ first ∈ tasks, ∀ last ∈ tasks,
    (first.placement σ).start < (last.placement σ).finish →
      FitBetween t σ tasks capacity (first.placement σ).start (last.placement σ).finish
  pairs : ∀ task ∈ tasks, ∀ other ∈ tasks, other ≠ task →
    ¬(task.placement σ).Clash t capacity (other.placement σ)

/-- The tasks are placed as an assignment says. -/
def AllPlaced (s : Store t) (σ : VarId → Int) (tasks : List Task) : Prop :=
  ∀ task ∈ tasks, task.PlacedAt s (task.placement σ)

theorem usage_eq : usage σ tasks time =
    ((running σ tasks time).map fun task => (task.placement σ).resource).sum := by
  have hrunning : running σ tasks time = tasks.filter fun task =>
      decide (σ task.start ≤ time) && decide (time < σ task.start + σ task.duration) :=
    List.filter_congr fun task _ => Bool.decide_and _ _
  rw [hrunning]
  rfl

theorem mem_running :
    task ∈ running σ tasks time ↔ task ∈ tasks ∧ (task.placement σ).RunsAt time := by
  simp only [running, List.mem_filter, decide_eq_true_eq]

section
variable [t.Lawful]

theorem taskWindows_eq (hs : s.WellFormed) (h : AllPlaced s σ tasks) :
    taskWindows s tasks = .ok (tasks.map fun task => (task.placement σ).window t) := by
  induction tasks with
  | nil => rfl
  | cons task tasks ih =>
    obtain ⟨hhead, htail⟩ := List.forall_mem_cons.mp h
    simp only [taskWindows, hhead.window hs, ih htail, bind, Except.bind, pure, Except.pure,
      List.map_cons]

theorem windowEnergy_eq (h : AllPlaced s σ tasks) :
    windowEnergy t (tasks.map fun task => (task.placement σ).window t) start finish =
      t.clamp (energyBetween σ tasks start finish) := by
  have hnonneg : ∀ e ∈ (tasks.filter fun task => (task.placement σ).Inside start finish).map
      fun task => (task.placement σ).energy, 0 ≤ e := by
    simp only [List.mem_map, List.mem_filter]
    rintro _ ⟨task, ⟨htask, -⟩, rfl⟩
    exact (h task htask).energy_nonneg
  have hinside : (tasks.filter fun task => (task.placement σ).Inside start finish) =
      tasks.filter ((fun w : TaskWindow =>
          decide (start ≤ w.earliest) && decide (w.latest ≤ finish)) ∘
        fun task => (task.placement σ).window t) :=
    List.filter_congr fun task _ => Bool.decide_and _ _
  have hfold := ValueType.foldl_clampedAdd (t := t) hnonneg
  rw [hinside, List.foldl_map, List.foldl_map] at hfold
  rw [windowEnergy, List.filter_map, List.foldl_map, energyBetween, hinside, ← hfold]
  rfl

theorem checkOverload_decides (hs : s.WellFormed) (h : AllPlaced s σ tasks) :
    (checkOverload tasks capacity).Decides s (∀ first ∈ tasks, ∀ last ∈ tasks,
      (first.placement σ).start < (last.placement σ).finish →
        FitBetween t σ tasks capacity (first.placement σ).start (last.placement σ).finish) := by
  refine .reading (taskWindows_eq hs h) ((Action.Decides.guarding (fun _ => .failing) _).congr ?_)
  simp only [overloaded, windowOverloaded, windowEnergy_eq h, List.any_map, List.any_eq_true,
    Function.comp_apply, Bool.and_eq_true, decide_eq_true_eq]
  simp only [Placement.window, FitBetween]
  push Not
  rfl

theorem separatePair_decides (hs : s.WellFormed) (htask : task.PlacedAt s (task.placement σ))
    (hother : other.PlacedAt s (other.placement σ)) :
    (Action.onlyIf (neverTogether capacity task other) (separate task other)).Decides s
      ¬(task.placement σ).Clash t capacity (other.placement σ) := by
  by_cases hlong : 0 < (task.placement σ).duration ∧ 0 < (other.placement σ).duration
  · refine (Action.Decides.onlyIf (htask.neverTogether hother hs) fun _ =>
      htask.separate_decides hother hs hlong.1 hlong.2).congr ?_
    simp only [Bool.and_eq_true, decide_eq_true_eq, Placement.Clash]
    exact ⟨fun hapart hclash => hapart ⟨hlong, hclash.2⟩ hclash.1,
      fun hnot hmuch htogether => hnot ⟨htogether, hmuch.2⟩⟩
  · have hnever : neverTogether capacity task other s = .ok _ := htask.neverTogether hother hs
    rw [← Bool.decide_and, decide_eq_false hlong, Bool.false_and] at hnever
    have hskipped : Action.Decides s
        (Action.onlyIf (neverTogether capacity task other) (separate task other))
        (false = true → False) := .onlyIf hnever nofun
    refine hskipped.congr (iff_of_true nofun ?_)
    rintro ⟨⟨time, hruns, hruns'⟩, -⟩
    exact hlong ⟨hruns.duration_pos, hruns'.duration_pos⟩

theorem separateFrom_decides (hs : s.WellFormed) (htask : task.PlacedAt s (task.placement σ))
    (h : AllPlaced s σ others) : (separateFrom capacity task others).Decides s (∀ other ∈ others,
      other ≠ task → ¬(task.placement σ).Clash t capacity (other.placement σ)) := by
  induction others with
  | nil => exact (Action.Decides.pure ()).congr (by simp)
  | cons other others ih =>
    obtain ⟨hother, hrest⟩ := List.forall_mem_cons.mp h
    -- unfolded, the walk through the others stands in both branches
    rw [separateFrom]
    refine (Action.Decides.ite (fun _ => ih hrest) fun _ =>
      (separatePair_decides hs htask hother).bind fun _ => ih hrest).congr ?_
    rw [List.forall_mem_cons]
    tauto

theorem separateAll_decides (hs : s.WellFormed) (h : AllPlaced s σ tasks)
    (hothers : AllPlaced s σ others) : (separateAll others capacity tasks).Decides s
      (∀ task ∈ tasks, ∀ other ∈ others, other ≠ task →
        ¬(task.placement σ).Clash t capacity (other.placement σ)) := by
  induction tasks with
  | nil => exact (Action.Decides.pure ()).congr (by simp)
  | cons task tasks ih =>
    obtain ⟨htask, hrest⟩ := List.forall_mem_cons.mp h
    refine ((separateFrom_decides hs htask hothers).bind fun _ => ih hrest).congr ?_
    rw [List.forall_mem_cons]

theorem propagateCumulative_decides (hs : s.WellFormed) (h : AllPlaced s σ tasks) :
    (propagateCumulative tasks capacity).Decides s (Fit t σ tasks capacity) :=
  ((checkOverload_decides hs h).bind fun _ => separateAll_decides hs h h).congr
    ⟨fun h => ⟨h.1, h.2⟩, fun h => ⟨h.windows, h.pairs⟩⟩

end

/-! ### The overloads that are found -/

theorem mul_usage_le (h : AllPlaced s σ tasks) {p : Placement}
    (halike : ∀ task ∈ running σ tasks time,
      (task.placement σ).start = p.start ∧ (task.placement σ).duration = p.duration) :
    p.duration * usage σ tasks time ≤ energyBetween σ tasks p.start p.finish := by
  rw [usage_eq, running, energyBetween]
  rw [running] at halike
  induction tasks with
  | nil => simp
  | cons task tasks ih =>
    obtain ⟨htask, hrest⟩ := List.forall_mem_cons.mp h
    by_cases hruns : (task.placement σ).RunsAt time
    · rw [List.filter_cons_of_pos (by simpa using hruns)] at halike
      obtain ⟨⟨hstart, hlong⟩, halike⟩ := List.forall_mem_cons.mp halike
      have hinside : (task.placement σ).Inside p.start p.finish := by
        simp only [Placement.Inside, Placement.finish]
        omega
      rw [List.filter_cons_of_pos (by simpa using hruns),
        List.filter_cons_of_pos (by simpa using hinside), List.map_cons, List.map_cons,
        List.sum_cons, List.sum_cons, Int.mul_add, Placement.energy, hlong]
      exact Int.add_le_add_left (ih hrest halike) _
    · rw [List.filter_cons_of_neg (by simpa using hruns)] at halike
      rw [List.filter_cons_of_neg (by simpa using hruns)]
      have hrest := ih hrest halike
      have henergy := htask.energy_nonneg
      rw [List.filter_cons]
      split
      · rw [List.map_cons, List.sum_cons]
        omega
      · exact hrest

theorem Fit.usage_le_of_pair (hfit : Fit t σ tasks capacity)
    (hcapacity : capacity < t.maxValue) (hpair : running σ tasks time = [task, other])
    (hne : other ≠ task) : usage σ tasks time ≤ capacity := by
  have hmem : task ∈ running σ tasks time ∧ other ∈ running σ tasks time := by simp [hpair]
  obtain ⟨htask, hruns⟩ := mem_running.mp hmem.1
  obtain ⟨hother, hruns'⟩ := mem_running.mp hmem.2
  have hfits : ¬capacity < t.clamp ((task.placement σ).resource + (other.placement σ).resource) :=
    fun hmuch => hfit.pairs task htask other hother hne ⟨⟨time, hruns, hruns'⟩, hmuch⟩
  rw [usage_eq, hpair]
  simpa using ValueType.le_of_clamp_le (Int.not_lt.mp hfits) hcapacity

variable [t.Lawful]

theorem Fit.usage_le_of_alike (hfit : Fit t σ tasks capacity) (h : AllPlaced s σ tasks)
    (hcapacity : 0 ≤ capacity) (htask : task ∈ running σ tasks time)
    (hroom : capacity * σ task.duration < t.maxValue)
    (halike : ∀ other ∈ running σ tasks time, (other.placement σ).start = (task.placement σ).start ∧
      (other.placement σ).duration = (task.placement σ).duration) :
    usage σ tasks time ≤ capacity := by
  obtain ⟨htask, hruns⟩ := mem_running.mp htask
  have hplaced := h task htask
  have hlong := hruns.duration_pos
  have henergy := mul_usage_le h halike
  have hwindow := hfit.windows task htask task htask (by simp only [Placement.finish]; omega)
  have hyield : t.clampedMul capacity
      (t.clampedSub (task.placement σ).finish (task.placement σ).start) ≤
        t.clamp (capacity * (task.placement σ).duration) := by
    rw [ValueType.clampedMul_eq]
    exact ValueType.clamp_le_clamp (Int.mul_le_mul_of_nonneg_left hplaced.length_le hcapacity)
  have hmin := ValueType.Lawful.min_eq (t := t)
  have hmax := ValueType.Lawful.one_le_max (t := t)
  have hexact : t.clamp (capacity * (task.placement σ).duration) =
      capacity * (task.placement σ).duration := by
    have hnonneg := Int.mul_nonneg hcapacity hplaced.duration_nonneg
    exact ValueType.clamp_eq ⟨by omega, Int.le_of_lt hroom⟩
  have hused : (task.placement σ).duration * usage σ tasks time ≤
      (task.placement σ).duration * capacity := by
    rw [Int.mul_comm _ capacity]
    refine henergy.trans (ValueType.le_of_clamp_le ?_ hroom)
    exact hwindow.trans (hyield.trans (Int.le_of_eq hexact))
  exact Int.le_of_mul_le_mul_left hused hlong

/-- No overload by at most two tasks, or by tasks that run over the same time, is missed, as long as
the capacity yields less over a task than the greatest value. -/
theorem Fit.usage_le (hfit : Fit t σ tasks capacity) (h : AllPlaced s σ tasks)
    (hcapacity : 0 ≤ capacity)
    (hroom : ∀ task ∈ running σ tasks time, capacity * σ task.duration < t.maxValue)
    (hfew : (running σ tasks time).length ≤ 2 ∨ ∀ task ∈ running σ tasks time,
      ∀ other ∈ running σ tasks time,
        σ other.start = σ task.start ∧ σ other.duration = σ task.duration) :
    usage σ tasks time ≤ capacity := by
  have halike {task : Task} (htask : task ∈ running σ tasks time)
      (h' : ∀ other ∈ running σ tasks time, σ other.start = σ task.start ∧
        σ other.duration = σ task.duration) : usage σ tasks time ≤ capacity :=
    hfit.usage_le_of_alike h hcapacity htask (hroom task htask) h'
  match hrunning : running σ tasks time, hfew with
  | [], _ => simpa [usage_eq, hrunning] using hcapacity
  | [task], _ =>
    have htask : task ∈ running σ tasks time := by simp [hrunning]
    exact halike htask (by simp [hrunning])
  | task :: other :: rest, .inr hsame =>
    have htask : task ∈ task :: other :: rest := List.mem_cons_self
    exact halike (hrunning ▸ htask) (hrunning ▸ hsame task htask)
  | [task, other], .inl _ =>
    have htask : task ∈ running σ tasks time := by simp [hrunning]
    by_cases heq : other = task
    · exact halike htask (by simp [hrunning, heq])
    · have hlong : 0 < σ task.duration := (mem_running.mp htask).2.duration_pos
      refine hfit.usage_le_of_pair ?_ hrunning heq
      exact (le_mul_of_one_le_right hcapacity hlong).trans_lt (hroom task htask)

end Task

/-! ### The propagator -/

namespace Propagator
variable {s : Store t} {σ : VarId → Int} {tasks : List Task}

/-- On placed tasks the propagator for a shared resource tests whether they fit and changes nothing.
What it passes has no overload by at most two tasks, or by tasks that run over the same time. -/
theorem cumulative_rejects_exactly [t.Lawful] (hs : s.WellFormed) (h : Task.AllPlaced s σ tasks)
    (capacity : Int) :
    (Task.Fit t σ tasks capacity →
      (cumulative tasks capacity : Propagator t).propagate s = .done s ()) ∧
    (¬Task.Fit t σ tasks capacity →
      (cumulative tasks capacity : Propagator t).propagate s = .emptied s) ∧
    (∀ s', (cumulative tasks capacity : Propagator t).propagate s = .done s' () → 0 ≤ capacity →
      ∀ time, (∀ task ∈ Task.running σ tasks time, capacity * σ task.duration < t.maxValue) →
        ((Task.running σ tasks time).length ≤ 2 ∨
          ∀ task ∈ Task.running σ tasks time, ∀ other ∈ Task.running σ tasks time,
            σ other.start = σ task.start ∧ σ other.duration = σ task.duration) →
        Task.usage σ tasks time ≤ capacity) := by
  have hdecides : (propagateCumulative tasks capacity).Decides s (Task.Fit t σ tasks capacity) :=
    Task.propagateCumulative_decides hs h
  refine ⟨fun hfit => ?_, hdecides.fails, ?_⟩
  · obtain ⟨_, hout⟩ := hdecides.passes hfit
    exact hout
  · intro s' hout hcapacity time hroom hfew
    have hfit : Task.Fit t σ tasks capacity := by
      by_contra hnot
      exact absurd (hout.symm.trans (hdecides.fails hnot)) nofun
    exact hfit.usage_le h hcapacity hroom hfew

def placedStore : Store .int32 where
  vars := [
    ⟨0, ⟨.intervals [⟨0, 0⟩], 0, .empty, .empty, false⟩, []⟩,
    ⟨1, ⟨.intervals [⟨1, 1⟩], 0, .empty, .empty, false⟩, []⟩,
    ⟨2, ⟨.intervals [⟨2, 2⟩], 0, .empty, .empty, false⟩, []⟩,
    ⟨3, ⟨.intervals [⟨3, 3⟩], 0, .empty, .empty, false⟩, []⟩,
    ⟨4, ⟨.intervals [⟨100000, 100000⟩], 0, .empty, .empty, false⟩, []⟩]
  level := 0
  trail := []
  woken := .empty
  names := .empty
  options := .standard

def placedValues : VarId → Int
  | 0 => 0
  | 1 => 1
  | 2 => 2
  | 3 => 3
  | _ => 100000

def staggeredTasks : List Task := [⟨0, 3, 1⟩, ⟨1, 3, 1⟩, ⟨2, 3, 1⟩]

def saturatingTask : Task := ⟨0, 4, 4⟩

def emptyTask : Task := ⟨0, 0, 0⟩

theorem placedStore_regular : placedStore.Regular := by
  refine Store.regular_root rfl rfl ?_ ?_
  · simp [placedStore, Variable.stamp, Variable.values, Domain.Consistent, Runs.Consistent,
      Domain.isEmpty]
  · simp only [placedStore, Store.Within, Variable.values, List.forall_mem_cons,
      Domain.forall_mem_intervals, Interval.mem_mk, ValueType.admissible_int32]
    and_intros <;> grind

theorem placedStore_placed : Task.AllPlaced placedStore placedValues
    (saturatingTask :: emptyTask :: staggeredTasks) := by
  have hreads : ∀ x < 5, placedStore.isFixed x = .ok true ∧
      placedStore.lowerBound x = .ok (placedValues x) := by
    decide
  have hfixed (x : VarId) (hlt : x < placedStore.vars.length) :
      placedStore.FixedAt x (placedValues x) :=
    (placedStore_regular.toWellFormed.fixedAt_iff_read (List.getElem?_eq_getElem hlt)).mpr
      (hreads x hlt)
  have hvars : ∀ task ∈ saturatingTask :: emptyTask :: staggeredTasks,
      task.start < 5 ∧ task.duration < 5 ∧ task.resource < 5 := by
    decide
  have hcomplete : ∀ task ∈ saturatingTask :: emptyTask :: staggeredTasks,
      0 ≤ (task.placement placedValues).duration ∧ 0 ≤ (task.placement placedValues).resource ∧
        (task.placement placedValues).finish ≤ ValueType.int32.maxValue := by
    decide
  intro task htask
  obtain ⟨hstart, hduration, hresource⟩ := hvars task htask
  obtain ⟨hlong, hmuch, hfinish⟩ := hcomplete task htask
  have hadmissible (x : VarId) (hx : x < placedStore.vars.length) :=
    (hfixed x hx).admissible placedStore_regular
  exact ⟨hfixed _ hstart, hfixed _ hduration, hfixed _ hresource, hadmissible _ hstart,
    hadmissible _ hduration, hadmissible _ hresource, hlong, hmuch, hfinish⟩

theorem staggeredTasks_placed : Task.AllPlaced placedStore placedValues staggeredTasks :=
  fun task h => placedStore_placed task (List.mem_cons_of_mem _ (List.mem_cons_of_mem _ h))

/-- Three tasks that run together at time 2 pass, since the capacity suffices over each window; so
does a task for which the energy and the yield of the capacity are clamped to the same value, and
with a capacity below zero a task that takes no time. -/
theorem cumulative_passes_overloads :
    placedStore.Reachable ∧
      (Task.AllPlaced placedStore placedValues staggeredTasks ∧
        (cumulative staggeredTasks 2 : Propagator .int32).propagate placedStore =
          .done placedStore () ∧
        ¬Task.usage placedValues staggeredTasks 2 ≤ 2) ∧
      (Task.AllPlaced placedStore placedValues [saturatingTask] ∧
        (cumulative [saturatingTask] 60000 : Propagator .int32).propagate placedStore =
          .done placedStore () ∧
        ¬Task.usage placedValues [saturatingTask] 0 ≤ 60000) ∧
      (Task.AllPlaced placedStore placedValues [emptyTask] ∧
        (cumulative [emptyTask] (-1) : Propagator .int32).propagate placedStore =
          .done placedStore () ∧
        ¬Task.usage placedValues [emptyTask] 0 ≤ -1) := by
  have hreach : placedStore.Reachable :=
    ⟨.standard, [.addRange 0 0, .addRange 1 1, .addRange 2 2, .addRange 3 3,
      .addRange 100000 100000], _, rfl⟩
  obtain ⟨hsaturating, hrest⟩ := List.forall_mem_cons.mp placedStore_placed
  obtain ⟨hempty, -⟩ := List.forall_mem_cons.mp hrest
  exact ⟨hreach, ⟨staggeredTasks_placed, by decide +kernel, by decide⟩,
    ⟨List.forall_mem_singleton.mpr hsaturating, by decide +kernel, by decide⟩,
    ⟨List.forall_mem_singleton.mpr hempty, by decide +kernel, by decide⟩⟩

theorem cumulative_rejects_exactly_staggered :
    placedStore.WellFormed ∧ Task.AllPlaced placedStore placedValues staggeredTasks ∧
      Task.Fit .int32 placedValues staggeredTasks 3 ∧
      ¬Task.Fit .int32 placedValues staggeredTasks 1 ∧
      (cumulative staggeredTasks 3 : Propagator .int32).propagate placedStore =
        .done placedStore () ∧
      (cumulative staggeredTasks 1 : Propagator .int32).propagate placedStore =
        .emptied placedStore ∧
      (Task.running placedValues staggeredTasks 1).length = 2 ∧
      Task.usage placedValues staggeredTasks 1 ≤ 3 := by
  have hs := placedStore_regular.toWellFormed
  have hfit : Task.Fit .int32 placedValues staggeredTasks 3 := by
    have hfew : ∀ task ∈ staggeredTasks, ∀ other ∈ staggeredTasks,
        ¬3 < ValueType.int32.clamp ((task.placement placedValues).resource +
          (other.placement placedValues).resource) := by
      decide
    exact ⟨by decide, fun task htask other hother _ hclash =>
      hfew task htask other hother hclash.2⟩
  have hnot : ¬Task.Fit .int32 placedValues staggeredTasks 1 := by
    intro hfit
    have hwindow := hfit.windows ⟨0, 3, 1⟩ (by decide) ⟨2, 3, 1⟩ (by decide) (by decide)
    exact absurd hwindow (by decide)
  obtain ⟨hpasses, -, hfinds⟩ := cumulative_rejects_exactly hs staggeredTasks_placed 3
  obtain ⟨-, hfails, -⟩ := cumulative_rejects_exactly hs staggeredTasks_placed 1
  exact ⟨hs, staggeredTasks_placed, hfit, hnot, hpasses hfit, hfails hnot, by decide,
    hfinds _ (hpasses hfit) (by decide) 1 (by decide) (.inl (by decide))⟩

end Propagator
end FiniteDomains
