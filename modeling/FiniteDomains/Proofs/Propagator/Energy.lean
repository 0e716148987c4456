import FiniteDomains.Proofs.Propagator.Precedence
import Mathlib.Algebra.Order.BigOperators.Group.Finset

/-! What an overloaded window says about schedules. The energy of the tasks inside a window is what
they use there, summed over its times, so a schedule within the capacity leaves no window with more
energy than the capacity yields. Clamping on both sides keeps that so, but for windows from the
least value of the universe to a time below zero, which are taken to be one shorter than they
are. -/
namespace FiniteDomains
variable {t : ValueType}

/-! ### Energy -/

def timesBetween (start finish : Int) : Finset Int := (⟨start, finish - 1⟩ : Interval).toFinset

theorem mem_timesBetween {start finish time : Int} :
    time ∈ timesBetween start finish ↔ start ≤ time ∧ time < finish := by
  rw [timesBetween, Interval.mem_toFinset, Interval.mem_mk]
  omega

theorem card_timesBetween (start finish : Int) :
    (timesBetween start finish).card = (finish - start).toNat := by
  rw [timesBetween, Interval.card_toFinset, Int.sub_add_cancel]

namespace Placement

theorem Inside.filter_runsAt {p : Placement} {start finish : Int} (h : p.Inside start finish) :
    (timesBetween start finish).filter p.RunsAt = timesBetween p.start p.finish := by
  obtain ⟨hstart, hfinish⟩ := h
  ext time
  simp only [Finset.mem_filter, mem_timesBetween, RunsAt]
  omega

theorem Inside.sum_resource {p : Placement} {start finish : Int} (h : p.Inside start finish)
    (hlong : 0 ≤ p.duration) :
    ∑ time ∈ timesBetween start finish, (if p.RunsAt time then p.resource else 0) = p.energy := by
  have hcard : ((p.finish - p.start).toNat : Int) = p.duration := by
    simp only [Placement.finish]
    omega
  rw [← Finset.sum_filter, h.filter_runsAt, Finset.sum_const, card_timesBetween, nsmul_eq_mul,
    hcard, energy]

end Placement

namespace Task
variable {σ : VarId → Int} {task : Task} {tasks : List Task} {capacity start finish : Int}

theorem placement_congr {σ' : VarId → Int} (h : ∀ x ∈ task.vars, σ' x = σ x) :
    task.placement σ' = task.placement σ := by
  have hstart := h task.start (by simp [vars])
  have hduration := h task.duration (by simp [vars])
  have hresource := h task.resource (by simp [vars])
  rw [placement, placement, hstart, hduration, hresource]

theorem usage_cons (σ : VarId → Int) (task : Task) (tasks : List Task) (time : Int) :
    usage σ (task :: tasks) time =
      (if (task.placement σ).RunsAt time then (task.placement σ).resource else 0)
        + usage σ tasks time := by
  rw [usage_eq, usage_eq, running, running, List.filter_cons]
  split <;> simp_all

theorem usage_congr {σ' : VarId → Int}
    (h : ∀ task ∈ tasks, task.placement σ' = task.placement σ) (time : Int) :
    usage σ' tasks time = usage σ tasks time := by
  induction tasks with
  | nil => rfl
  | cons task tasks ih =>
    obtain ⟨htask, hrest⟩ := List.forall_mem_cons.mp h
    rw [usage_cons, usage_cons, htask, ih hrest]

theorem energyBetween_cons (σ : VarId → Int) (task : Task) (tasks : List Task)
    (start finish : Int) : energyBetween σ (task :: tasks) start finish =
      (if (task.placement σ).Inside start finish then (task.placement σ).energy else 0)
        + energyBetween σ tasks start finish := by
  rw [energyBetween, energyBetween, List.filter_cons]
  split <;> simp_all

theorem energyBetween_le_sum_usage (hlong : ∀ task ∈ tasks, 0 ≤ σ task.duration)
    (hmuch : ∀ task ∈ tasks, 0 ≤ σ task.resource) (start finish : Int) :
    energyBetween σ tasks start finish ≤
      ∑ time ∈ timesBetween start finish, usage σ tasks time := by
  induction tasks with
  | nil => simp [energyBetween, usage]
  | cons task tasks ih =>
    obtain ⟨hlong, hlongs⟩ := List.forall_mem_cons.mp hlong
    obtain ⟨hmuch, hmuchs⟩ := List.forall_mem_cons.mp hmuch
    simp only [usage_cons, Finset.sum_add_distrib, energyBetween_cons]
    refine Int.add_le_add ?_ (ih hlongs hmuchs)
    split
    · next hinside => exact (hinside.sum_resource hlong).ge
    · refine Finset.sum_nonneg fun time _ => ?_
      split
      · exact hmuch
      · exact Int.le_refl 0

theorem energyBetween_le (hlong : ∀ task ∈ tasks, 0 ≤ σ task.duration)
    (hmuch : ∀ task ∈ tasks, 0 ≤ σ task.resource) (husage : ∀ time, usage σ tasks time ≤ capacity)
    (hle : start ≤ finish) :
    energyBetween σ tasks start finish ≤ capacity * (finish - start) :=
  calc energyBetween σ tasks start finish
      ≤ ∑ time ∈ timesBetween start finish, usage σ tasks time :=
        energyBetween_le_sum_usage hlong hmuch start finish
    _ ≤ ∑ _time ∈ timesBetween start finish, capacity := Finset.sum_le_sum fun time _ => husage time
    _ = capacity * (finish - start) := by
        rw [Finset.sum_const, card_timesBetween, nsmul_eq_mul, Int.toNat_of_nonneg (by omega),
          Int.mul_comm]

end Task

/-! ### Windows -/

theorem Store.WellFormed.exists_admits {s : Store t} (h : s.WellFormed) {xs : List VarId}
    {σ : VarId → Int} (hσ : ∀ x ∈ xs, s.HasValue x (σ x)) :
    ∃ σ', s.Admits σ' ∧ ∀ x ∈ xs, σ' x = σ x := by
  have hchoice (x : VarId) : ∃ w, (∀ v, s.vars[x]? = some v → w ∈ v.values) ∧
      (x ∈ xs → w = σ x) := by
    by_cases hx : x ∈ xs
    · exact ⟨σ x, fun v hv => (hasValue_iff hv).mp (hσ x hx), fun _ => rfl⟩
    · cases hv : s.vars[x]? with
      | none => exact ⟨0, nofun, fun hmem => absurd hmem hx⟩
      | some v =>
        obtain ⟨w, hw⟩ := h.exists_value hv
        refine ⟨w, ?_, fun hmem => absurd hmem hx⟩
        rintro _ ⟨⟩
        exact (hasValue_iff hv).mp hw
  choose σ' hin hon using hchoice
  exact ⟨σ', hin, hon⟩

/-- A window around a placement, for no more energy than the placement has. -/
structure TaskWindow.Around (t : ValueType) (w : TaskWindow) (p : Placement) : Prop where
  earliest_admissible : t.Admissible w.earliest
  latest_admissible : t.Admissible w.latest
  energy_nonneg : 0 ≤ w.energy
  energy_le_max : w.energy ≤ t.maxValue
  earliest_le : w.earliest ≤ p.start
  finish_le : t.clamp p.finish ≤ w.latest
  energy_le : w.energy ≤ p.energy

theorem Store.Supports.hasValue {s : Store t} {xs : List VarId} {σ : VarId → Int} {x : VarId}
    (h : s.Supports xs σ) (hx : x ∈ xs) : s.HasValue x (σ x) := by
  obtain ⟨v, hv⟩ := h.has x hx
  exact ⟨v, hv, h.admits x v hv⟩

namespace Task
variable {s : Store t} {σ : VarId → Int} {task : Task} {tasks : List Task} {xs : List VarId}
variable {capacity start finish : Int} {windows : List TaskWindow}

/-- Neither the duration of a task nor the amount that it uses can be negative. -/
structure NonNegative (task : Task) (s : Store t) : Prop where
  duration : ∀ w, s.HasValue task.duration w → 0 ≤ w
  resource : ∀ w, s.HasValue task.resource w → 0 ≤ w

theorem NonNegative.of_fixedAt {duration resource : Int} (hlong : s.FixedAt task.duration duration)
    (hmuch : s.FixedAt task.resource resource) (hduration : 0 ≤ duration)
    (hresource : 0 ≤ resource) : task.NonNegative s where
  duration := fun w hw => (hlong w).mp hw ▸ hduration
  resource := fun w hw => (hmuch w).mp hw ▸ hresource

/-- A window between an earliest start and a latest completion in which the check finds too much
energy. -/
def Overload (s : Store t) (tasks : List Task) (capacity start finish : Int) : Prop :=
  ∃ windows, taskWindows s tasks = .ok windows ∧
    (∃ first ∈ windows, first.earliest = start) ∧ (∃ last ∈ windows, last.latest = finish) ∧
      windowOverloaded t capacity windows start finish = true

theorem checkOverload_eq (hread : taskWindows s tasks = .ok windows) (capacity : Int) :
    checkOverload tasks capacity s =
      if overloaded t capacity windows then .emptied s else .done s () := by
  have hreading : Action.reading (fun s => taskWindows s tasks) s = .done s windows :=
    Action.Tightens.reading_ok hread
  simp only [checkOverload, Bind.bind, hreading, Outcome.andThen]
  split <;> rfl

theorem overload_iff (hread : taskWindows s tasks = .ok windows) (capacity : Int) :
    overloaded t capacity windows = true ↔
      ∃ start finish, Overload s tasks capacity start finish := by
  simp only [overloaded, List.any_eq_true]
  constructor
  · rintro ⟨first, hfirst, last, hlast, hover⟩
    exact ⟨_, _, windows, hread, ⟨first, hfirst, rfl⟩, ⟨last, hlast, rfl⟩, hover⟩
  · rintro ⟨_, _, windows', hread', ⟨first, hfirst, rfl⟩, ⟨last, hlast, rfl⟩, hover⟩
    obtain rfl : windows' = windows := Except.ok.inj (hread'.symm.trans hread)
    exact ⟨first, hfirst, last, hlast, hover⟩

section
variable [t.Lawful]

omit [t.Lawful] in
theorem gives_leastNonNeg {x : VarId} (h : s.Supports xs σ) (hx : x ∈ xs)
    (hnonneg : ∀ w, s.HasValue x w → 0 ≤ w) :
    Gives (s.lowerBound x) fun lo => 0 ≤ lo ∧ lo ≤ σ x := by
  obtain ⟨v, hv⟩ := h.has x hx
  obtain ⟨r, hr⟩ := h.toWellFormed.boundedBy hv
  exact ⟨r.lo, hr.lower, hnonneg _ ⟨v, hv, hr.least.1⟩, hr.least.2 (h.admits x v hv)⟩

theorem gives_energy (h : s.Supports xs σ) (htask : task.vars ⊆ xs)
    (hnonneg : task.NonNegative s) : Gives (task.energy s) fun energy =>
      (0 ≤ energy ∧ energy ≤ t.maxValue) ∧ energy ≤ (task.placement σ).energy := by
  -- Clamped, the least energy of a task is still no more than the energy of its placements.
  refine (gives_leastNonNeg h (htask (by simp [vars])) hnonneg.duration).bind
    fun duration hduration =>
      (gives_leastNonNeg h (htask (by simp [vars])) hnonneg.resource).bind
        fun resource hresource => .pure ?_
  have hproduct : 0 ≤ duration * resource := Int.mul_nonneg hduration.1 hresource.1
  have hexact : duration * resource ≤ (task.placement σ).energy :=
    Int.mul_le_mul hduration.2 hresource.2 hresource.1 (hduration.1.trans hduration.2)
  have hclamp : 0 ≤ t.clamp (duration * resource) :=
    (ValueType.clamp_zero (t := t)).ge.trans (ValueType.clamp_le_clamp hproduct)
  rw [ValueType.clampedMul_eq]
  exact ⟨⟨hclamp, (ValueType.clamp_admissible _).2⟩,
    (ValueType.clamp_le_self hproduct).trans hexact⟩

theorem gives_window (h : s.Supports xs σ) (htask : task.vars ⊆ xs)
    (hnonneg : task.NonNegative s) :
    Gives (task.window s) fun w => w.Around t (task.placement σ) :=
  (gives_earliestStart h htask).bind fun _ hearliest =>
    (gives_latestCompletion h htask).bind fun _ hlatest =>
      (gives_energy h htask hnonneg).bind fun _ henergy => .pure
        ⟨hearliest.1, hlatest.1, henergy.1.1, henergy.1.2, hearliest.2, hlatest.2, henergy.2⟩

theorem gives_taskWindows (h : s.Supports xs σ) (hvars : ∀ task ∈ tasks, task.vars ⊆ xs)
    (hnonneg : ∀ task ∈ tasks, task.NonNegative s) : Gives (taskWindows s tasks) fun windows =>
      List.Forall₂ (fun w task => w.Around t (task.placement σ)) windows tasks := by
  induction tasks with
  | nil => exact .pure .nil
  | cons task tasks ih =>
    obtain ⟨hvar, hvars⟩ := List.forall_mem_cons.mp hvars
    obtain ⟨hnon, hnons⟩ := List.forall_mem_cons.mp hnonneg
    exact (gives_window h hvar hnon).bind fun w hw =>
      (ih hvars hnons).bind fun windows hwindows => .pure (.cons hw hwindows)

omit [t.Lawful] in
theorem forall_around
    (h : List.Forall₂ (fun w task => w.Around t (task.placement σ)) windows tasks) :
    ∀ w ∈ windows, ∃ p, w.Around t p := by
  induction h with
  | nil => simp
  | cons hw _ ih => exact List.forall_mem_cons.mpr ⟨⟨_, hw⟩, ih⟩

omit [t.Lawful] in
theorem sum_energy_le
    (h : List.Forall₂ (fun w task => w.Around t (task.placement σ)) windows tasks)
    (hends : ∀ task ∈ tasks,
      t.clamp (task.placement σ).finish ≤ finish → (task.placement σ).finish ≤ finish) :
    ((windows.filter fun w => decide (start ≤ w.earliest) && decide (w.latest ≤ finish)).map
      TaskWindow.energy).sum ≤ energyBetween σ tasks start finish := by
  -- Where clamping brings no completion into the window, a placement lies in it if the window of
  -- its task does.
  induction h with
  | nil => simp [energyBetween]
  | @cons w task windows tasks hw _ ih =>
    obtain ⟨hend, hends⟩ := List.forall_mem_cons.mp hends
    rw [energyBetween_cons, List.filter_cons]
    have hnonneg := hw.energy_nonneg.trans hw.energy_le
    have hrest := ih hends
    split
    · next hin =>
      simp only [Bool.and_eq_true, decide_eq_true_eq] at hin
      have hinside : (task.placement σ).Inside start finish :=
        ⟨hin.1.trans hw.earliest_le, hend (hw.finish_le.trans hin.2)⟩
      rw [if_pos hinside, List.map_cons, List.sum_cons]
      exact Int.add_le_add hw.energy_le hrest
    · split <;> omega

/-- Energies that are in the universe already add up to the clamp of their sum. -/
theorem windowEnergy_eq_sum (h : ∀ w ∈ windows, 0 ≤ w.energy ∧ w.energy ≤ t.maxValue)
    (start finish : Int) : windowEnergy t windows start finish = t.clamp
      ((windows.filter fun w => decide (start ≤ w.earliest) && decide (w.latest ≤ finish)).map
        TaskWindow.energy).sum := by
  have henergy : ∀ w ∈ windows.filter fun w =>
      decide (start ≤ w.earliest) && decide (w.latest ≤ finish),
      0 ≤ w.energy ∧ t.clamp w.energy = w.energy := by
    intro w hw
    obtain ⟨hnonneg, hle⟩ := h w (List.mem_of_mem_filter hw)
    have hmin := ValueType.Lawful.min_eq (t := t)
    have hmax := ValueType.Lawful.one_le_max (t := t)
    exact ⟨hnonneg, ValueType.clamp_eq ⟨by omega, hle⟩⟩
  have hfold := ValueType.foldl_clampedAdd (t := t)
    (List.forall_mem_map.mpr fun w hw => (henergy w hw).1)
  rw [List.map_map, List.foldl_map] at hfold
  rw [windowEnergy, ← hfold]
  exact List.foldl_ext _ _ _ fun energy w hw => by rw [Function.comp_apply, (henergy w hw).2]

/-- A window that is taken at its length is overloaded only if every assignment that it tells
complete tasks of uses too much at some time. -/
theorem Overload.exceeds (hover : Overload s tasks capacity start finish)
    (hsupports : s.Supports xs σ) (hvars : ∀ task ∈ tasks, task.vars ⊆ xs)
    (hnonneg : ∀ task ∈ tasks, task.NonNegative s) (hcapacity : 0 ≤ capacity)
    (hlength : ¬(start = t.minValue ∧ finish < 0))
    (hends : finish < t.maxValue ∨ ∀ task ∈ tasks, (task.placement σ).finish ≤ t.maxValue) :
    ∃ time, capacity < usage σ tasks time := by
  obtain ⟨windows, hread, ⟨first, hfirst, rfl⟩, ⟨last, hlast, rfl⟩, hover⟩ := hover
  obtain ⟨windows', hread', haround⟩ := gives_taskWindows hsupports hvars hnonneg
  obtain rfl : windows' = windows := Except.ok.inj (hread'.symm.trans hread)
  have hall := forall_around haround
  obtain ⟨p, hp⟩ := hall first hfirst
  obtain ⟨q, hq⟩ := hall last hlast
  simp only [windowOverloaded, Bool.and_eq_true, decide_eq_true_eq] at hover
  obtain ⟨hlt, hmuch⟩ := hover
  by_contra husage
  push Not at husage
  have hlong : ∀ task ∈ tasks, 0 ≤ σ task.duration := fun task htask =>
    (hnonneg task htask).duration _ (hsupports.hasValue (hvars task htask (by simp [vars])))
  have hneeds : ∀ task ∈ tasks, 0 ≤ σ task.resource := fun task htask =>
    (hnonneg task htask).resource _ (hsupports.hasValue (hvars task htask (by simp [vars])))
  have hwithin : ∀ task ∈ tasks, t.clamp (task.placement σ).finish ≤ last.latest →
      (task.placement σ).finish ≤ last.latest := by
    intro task htask hle
    rcases hends with hlast | hends
    · exact ValueType.le_of_clamp_le hle hlast
    · exact (ValueType.le_clamp (hends task htask)).trans hle
  have hbounds : ∀ w ∈ windows', 0 ≤ w.energy ∧ w.energy ≤ t.maxValue := by
    intro w hw
    obtain ⟨_, haround⟩ := hall w hw
    exact ⟨haround.energy_nonneg, haround.energy_le_max⟩
  have hneeded := calc windowEnergy t windows' first.earliest last.latest
    _ ≤ t.clamp (energyBetween σ tasks first.earliest last.latest) := by
        rw [windowEnergy_eq_sum hbounds]
        exact ValueType.clamp_le_clamp (sum_energy_le haround hwithin)
    _ ≤ t.clamp (capacity * (last.latest - first.earliest)) :=
        ValueType.clamp_le_clamp (energyBetween_le hlong hneeds husage hlt.le)
    _ ≤ t.clamp (capacity * t.clamp (last.latest - first.earliest)) :=
        ValueType.clamp_mul_le hcapacity _
    _ = t.clampedMul capacity (t.clampedSub last.latest first.earliest) := by
        rw [ValueType.clampedMul_eq, (ValueType.clampedSub_eq_iff hq.latest_admissible
          hp.earliest_admissible).mpr hlength]
  exact absurd hneeded (Int.not_le.mpr hmuch)

end
end Task

/-! ### Overloads and schedules -/

namespace Propagator
variable {s : Store t} {tasks : List Task} {capacity : Int}

/-- The check for overloads changes nothing, and fails exactly if a window is overloaded. Unless it
runs from the least value of the universe to a time below zero, tasks that are complete within the
universe cannot be scheduled then, nor can any tasks if the window ends before the greatest
value. -/
theorem overload_excludes_schedules [t.Lawful] (hs : s.Regular)
    (hx : s.Has (cumulative tasks capacity : Propagator t).vars) (hcapacity : 0 ≤ capacity)
    (hnonneg : ∀ task ∈ tasks, task.NonNegative s) :
    (checkOverload tasks capacity s = .done s () ∨ checkOverload tasks capacity s = .emptied s) ∧
      (checkOverload tasks capacity s = .emptied s ↔
        ∃ start finish, Task.Overload s tasks capacity start finish) ∧
      ∀ start finish, Task.Overload s tasks capacity start finish →
        ¬(start = t.minValue ∧ finish < 0) →
          ∀ σ : VarId → Int, (∀ task ∈ tasks, ∀ x ∈ task.vars, s.HasValue x (σ x)) →
            (finish < t.maxValue ∨ ∀ task ∈ tasks, (task.placement σ).finish ≤ t.maxValue) →
              ∃ time, capacity < Task.usage σ tasks time := by
  have hvars : ∀ task ∈ tasks, task.vars ⊆ (cumulative tasks capacity : Propagator t).vars :=
    fun _ hmem => task_vars_subset hmem capacity
  obtain ⟨windows, hread⟩ := (taskWindows_reads hvars).total s hs.toWellFormed hx
  have hcheck := Task.checkOverload_eq hread capacity
  have hiff := Task.overload_iff hread capacity
  refine ⟨?_, ?_, ?_⟩
  · rw [hcheck]
    split
    · exact .inr rfl
    · exact .inl rfl
  · rw [hcheck, ← hiff]
    split
    · next hover => exact iff_of_true rfl hover
    · next hnot => exact iff_of_false nofun hnot
  · intro start finish hover hlength σ hσ hends
    have hassigned : ∀ x ∈ tasks.flatMap Task.vars, s.HasValue x (σ x) := by
      intro x hx
      obtain ⟨task, htask, hx⟩ := List.mem_flatMap.mp hx
      exact hσ task htask x hx
    obtain ⟨σ', hadmits, hagree⟩ := hs.toWellFormed.exists_admits hassigned
    have hplacement : ∀ task ∈ tasks, task.placement σ' = task.placement σ := fun task htask =>
      Task.placement_congr fun x hx => hagree x (List.mem_flatMap.mpr ⟨task, htask, hx⟩)
    obtain ⟨time, hmuch⟩ := hover.exceeds ⟨hs, hx, hadmits⟩ hvars hnonneg hcapacity hlength
      (hends.imp_right fun hends task htask => hplacement task htask ▸ hends task htask)
    exact ⟨time, by rwa [Task.usage_congr hplacement] at hmuch⟩

/-- One task of an energy beyond the greatest value needs more than a small capacity yields. -/
theorem overload_excludes_schedules_saturating :
    placedStore.Regular ∧
      placedStore.Has (cumulative [saturatingTask] 1000 : Propagator .int32).vars ∧
      (∀ task ∈ [saturatingTask], task.NonNegative placedStore) ∧
      Task.Overload placedStore [saturatingTask] 1000 0 100000 ∧
      (∀ x ∈ saturatingTask.vars, placedStore.HasValue x (placedValues x)) ∧
      checkOverload [saturatingTask] 1000 placedStore = .emptied placedStore ∧
      ∃ time, 1000 < Task.usage placedValues [saturatingTask] time := by
  have hs := placedStore_regular
  have hhas : placedStore.Has (cumulative [saturatingTask] 1000 : Propagator .int32).vars := by
    decide
  have hplaced := placedStore_placed saturatingTask (by decide)
  have hnonneg : ∀ task ∈ [saturatingTask], task.NonNegative placedStore :=
    List.forall_mem_singleton.mpr (.of_fixedAt hplaced.duration hplaced.resource
      hplaced.duration_nonneg hplaced.resource_nonneg)
  have hover : Task.Overload placedStore [saturatingTask] 1000 0 100000 := by
    refine ⟨_, rfl, ⟨_, List.mem_singleton_self _, ?_⟩, ⟨_, List.mem_singleton_self _, ?_⟩, ?_⟩ <;>
      decide +kernel
  have hvalues : ∀ x ∈ saturatingTask.vars, placedStore.HasValue x (placedValues x) := by
    refine List.forall_mem_cons.mpr ⟨(hplaced.start _).mpr rfl, List.forall_mem_cons.mpr
      ⟨(hplaced.duration _).mpr rfl, List.forall_mem_singleton.mpr ?_⟩⟩
    exact (hplaced.resource _).mpr rfl
  obtain ⟨-, hfails, hexcludes⟩ := overload_excludes_schedules hs hhas (by decide) hnonneg
  exact ⟨hs, hhas, hnonneg, hover, hvalues, hfails.mpr ⟨0, 100000, hover⟩,
    hexcludes 0 100000 hover (by decide) placedValues (List.forall_mem_singleton.mpr hvalues)
      (.inl (by decide))⟩

/-- The start of a task that is complete beyond the universe, that of one at the least value, and
two amounts. -/
def edgeStore : Store .int32 where
  vars := [
    ⟨0, ⟨.intervals [⟨536870908, 536870908⟩], 0, .empty, .empty, false⟩, []⟩,
    ⟨1, ⟨.intervals [⟨5, 5⟩], 0, .empty, .empty, false⟩, []⟩,
    ⟨2, ⟨.intervals [⟨1, 1⟩], 0, .empty, .empty, false⟩, []⟩,
    ⟨3, ⟨.intervals [⟨-536870910, -536870910⟩], 0, .empty, .empty, false⟩, []⟩]
  level := 0
  trail := []
  woken := .empty
  names := .empty
  options := .standard

def edgeValues : VarId → Int
  | 0 => 536870908
  | 1 => 5
  | 2 => 1
  | _ => -536870910

theorem edgeStore_regular : edgeStore.Regular := by
  refine Store.regular_root rfl rfl ?_ ?_
  · simp [edgeStore, Variable.stamp, Variable.values, Domain.Consistent, Runs.Consistent,
      Domain.isEmpty]
  · simp only [edgeStore, Store.Within, Variable.values, List.forall_mem_cons,
      Domain.forall_mem_intervals, Interval.mem_mk, ValueType.admissible_int32]
    and_intros <;> grind

theorem edgeStore_fixed (x : VarId) (hlt : x < edgeStore.vars.length) :
    edgeStore.FixedAt x (edgeValues x) := by
  have hreads : ∀ x < 4, edgeStore.isFixed x = .ok true ∧
      edgeStore.lowerBound x = .ok (edgeValues x) := by
    decide +kernel
  exact (edgeStore_regular.toWellFormed.fixedAt_iff_read (List.getElem?_eq_getElem hlt)).mpr
    (hreads x hlt)

/-- A task alone uses no more than the capacity, and its window is overloaded: completion at the
greatest value cuts off most of one window, and the other one is taken to have no length. -/
theorem saturation_overloads_schedules :
    edgeStore.Reachable ∧ edgeStore.Regular ∧ edgeStore.Admits edgeValues ∧
      ∀ task ∈ ([⟨0, 1, 2⟩, ⟨3, 2, 2⟩] : List Task), task.NonNegative edgeStore ∧
        (∀ x ∈ task.vars, edgeStore.HasValue x (edgeValues x)) ∧
        checkOverload [task] 1 edgeStore = .emptied edgeStore ∧
        ∀ time, Task.usage edgeValues [task] time ≤ 1 := by
  have hreach : edgeStore.Reachable :=
    ⟨.standard, [.addRange 536870908 536870908, .addRange 5 5, .addRange 1 1,
      .addRange (-536870910) (-536870910)], _, rfl⟩
  have hadmits : edgeStore.Admits edgeValues := Store.forall_getElem? (by decide +kernel)
  have hknown : ∀ task ∈ ([⟨0, 1, 2⟩, ⟨3, 2, 2⟩] : List Task),
      (∀ x ∈ task.vars, x < edgeStore.vars.length) ∧ 0 ≤ edgeValues task.duration ∧
        0 ≤ edgeValues task.resource ∧ edgeValues task.resource ≤ 1 ∧
        checkOverload [task] 1 edgeStore = .emptied edgeStore := by
    decide +kernel
  refine ⟨hreach, edgeStore_regular, hadmits, fun task htask => ?_⟩
  obtain ⟨hvars, hlong, hmuch, hle, hfails⟩ := hknown task htask
  have hfixed (x : VarId) (hx : x ∈ task.vars) := edgeStore_fixed x (hvars x hx)
  have husage (time : Int) : Task.usage edgeValues [task] time ≤ 1 := by
    rw [Task.usage_cons, Task.usage, List.filter_nil, List.map_nil, List.sum_nil, Int.add_zero]
    split
    · exact hle
    · exact Int.le_of_lt Int.one_pos
  exact ⟨.of_fixedAt (hfixed _ (by simp [Task.vars])) (hfixed _ (by simp [Task.vars])) hlong hmuch,
    fun x hx => (hfixed x hx _).mpr rfl, hfails, husage⟩

end Propagator
end FiniteDomains
