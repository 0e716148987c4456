import FiniteDomains.Proofs.Interval.Division
import FiniteDomains.Proofs.Propagator.Tightening
import FiniteDomains.Propagator.Basic

/-! The propagators of the library narrow bounds and read nothing but bounds, but for the one that
excludes a value. That one is settled once and for all when the value is gone. -/
namespace FiniteDomains
variable {t : ValueType} {xs : List VarId} {x y z : VarId} {F : Fault → Prop}

open Action.Tightens

/-! ### Sums and products -/

theorem boundsOf_tightens (hx : x ∈ xs) : (boundsOf (t := t) x).Tightens F xs :=
  reading (ReadsBounds.bounds hx)

theorem narrowInto_tightens [t.Lawful] (hx : x ∈ xs) (r : Interval) :
    (narrowInto (t := t) x r).Tightens F xs :=
  Action.Tightens.narrowVar hx (Narrowing.convex_within r.lo r.hi)

theorem narrowIntoQuotients_tightens [t.Lawful] (hx : x ∈ xs)
    (quotients : Except DivisionError Interval) :
    (narrowIntoQuotients (t := t) x quotients).Tightens F xs := by
  cases quotients with
  | ok r => exact narrowInto_tightens hx r
  | error => exact failing

theorem propagateSum_tightens [t.Lawful] (hx : x ∈ xs) (hy : y ∈ xs) (hz : z ∈ xs) :
    (propagateSum (t := t) x y z).Tightens Fault.Malformed xs := by
  refine (boundsOf_tightens hx).bind fun rx => ?_
  refine (boundsOf_tightens hy).bind fun ry => ?_
  refine (lift (Interval.make_onlyMalformed _ _)).bind fun sums => ?_
  refine (narrowInto_tightens hz sums).bind fun _ => ?_
  refine (boundsOf_tightens hz).bind fun rz => ?_
  refine (lift Interval.checkedSub_onlyMalformed).bind fun differences => ?_
  refine (narrowInto_tightens hx differences).bind fun _ => ?_
  refine (boundsOf_tightens hx).bind fun rx => ?_
  refine (lift Interval.checkedSub_onlyMalformed).bind fun differences => ?_
  refine (narrowInto_tightens hy differences).bind fun _ => ?_
  exact .pure ()

theorem propagateProduct_tightens [t.Lawful] (hx : x ∈ xs) (hy : y ∈ xs) (hz : z ∈ xs) :
    (propagateProduct (t := t) x y z).Tightens Fault.Malformed xs := by
  refine (boundsOf_tightens hx).bind fun rx => ?_
  refine (boundsOf_tightens hy).bind fun ry => ?_
  refine (lift (Interval.make_onlyMalformed _ _)).bind fun products => ?_
  refine (narrowInto_tightens hz products).bind fun _ => ?_
  refine (boundsOf_tightens hz).bind fun rz => ?_
  refine (lift Interval.checkedDiv_onlyMalformed).bind fun quotients => ?_
  refine (narrowIntoQuotients_tightens hx quotients).bind fun _ => ?_
  refine (boundsOf_tightens hx).bind fun rx => ?_
  refine (lift Interval.checkedDiv_onlyMalformed).bind fun quotients => ?_
  refine (narrowIntoQuotients_tightens hy quotients).bind fun _ => ?_
  exact .pure ()

/-- On stores of values that can be negated an action ends without a fault, and its result has a
property. -/
def Action.Yields {α : Type} (xs : List VarId) (action : Action (Store t) α) (Q : α → Prop) :
    Prop :=
  ∀ s, s.WellFormed → s.Within t.Negatable → s.Has xs →
    (action s).Ends (fun s' a => s.Shrunk s' ∧ Q a) s.Shrunk

namespace Action.Yields
variable {α β : Type}

theorem bind {action : Action (Store t) α} {next : α → Action (Store t) β} {P : α → Prop}
    {Q : β → Prop} (ha : action.Yields xs P) (hn : ∀ a, P a → (next a).Yields xs Q) :
    (action >>= next).Yields xs Q := by
  intro s h hneg hx
  refine (ha s h hneg hx).andThen (fun s₁ a ⟨hs₁, hp⟩ => ?_) fun _ hs₁ => hs₁
  have hrest := hn a hp s₁ (hs₁.wellFormed h) (hs₁.tighter.within hneg) (hs₁.tighter.has hx)
  exact hrest.imp (fun _ _ ⟨hs₂, hq⟩ => ⟨hs₁.trans hs₂, hq⟩) fun _ hs₂ => hs₁.trans hs₂

theorem of_tightens {action : Action (Store t) α} (h : action.Tightens (fun _ => False) xs) :
    action.Yields xs fun _ => True :=
  fun s hs _ hx => (h.ends s hs hx).ends.imp (fun _ _ hs' => ⟨hs', trivial⟩) fun _ hs' => hs'

theorem lift {result : Except Fault α} {a : α} (h : result = .ok a) :
    (Action.lift result : Action (Store t) α).Yields xs (· = a) := by
  intro s _ _ _
  subst h
  exact ⟨.refl s, rfl⟩

theorem boundsOf (hx : x ∈ xs) : (boundsOf (t := t) x).Yields xs (Interval.Sturdy t) := by
  intro s h hneg hxs
  obtain ⟨v, hv⟩ := hxs x hx
  obtain ⟨r, hr⟩ := h.boundedBy hv
  have hvalues := hneg v (List.mem_of_getElem? hv)
  have hread : FiniteDomains.boundsOf x s = .done s r := Action.Tightens.reading_ok hr.bounds
  rw [hread]
  exact ⟨.refl s, hr.greatest.2 hr.least.1, hvalues _ hr.least.1, hvalues _ hr.greatest.1⟩

variable [t.Lawful]

theorem narrowInto (hx : x ∈ xs) (r : Interval) :
    (narrowInto (t := t) x r).Yields xs fun _ => True :=
  of_tightens (narrowInto_tightens hx r)

theorem narrowIntoQuotients (hx : x ∈ xs) (quotients : Except DivisionError Interval) :
    (narrowIntoQuotients (t := t) x quotients).Yields xs fun _ => True :=
  of_tightens (narrowIntoQuotients_tightens hx quotients)

theorem propagateSum (hx : x ∈ xs) (hy : y ∈ xs) (hz : z ∈ xs) :
    (propagateSum (t := t) x y z).Yields xs fun _ => True := by
  refine (boundsOf hx).bind fun rx hrx => (boundsOf hy).bind fun ry hry => ?_
  refine (lift (Interval.checkedAdd_eq hrx hry)).bind fun sums _ => ?_
  refine (narrowInto hz sums).bind fun _ _ => (boundsOf hz).bind fun rz hrz => ?_
  refine (lift (Interval.checkedSub_eq hrz hry)).bind fun differences _ => ?_
  refine (narrowInto hx differences).bind fun _ _ => (boundsOf hx).bind fun rx hrx => ?_
  refine (lift (Interval.checkedSub_eq hrz hrx)).bind fun differences _ => ?_
  exact (narrowInto hy differences).bind fun _ _ => of_tightens (.pure ())

theorem propagateProduct (hx : x ∈ xs) (hy : y ∈ xs) (hz : z ∈ xs) :
    (propagateProduct (t := t) x y z).Yields xs fun _ => True := by
  refine (boundsOf hx).bind fun rx hrx => (boundsOf hy).bind fun ry hry => ?_
  refine (lift (Interval.checkedMul_eq rx ry)).bind fun products _ => ?_
  refine (narrowInto hz products).bind fun _ _ => (boundsOf hz).bind fun rz hrz => ?_
  refine (lift (Interval.checkedDiv_eq hrz hry.le)).bind fun quotients _ => ?_
  refine (narrowIntoQuotients hx quotients).bind fun _ _ => (boundsOf hx).bind fun rx hrx => ?_
  refine (lift (Interval.checkedDiv_eq hrz hrx.le)).bind fun quotients _ => ?_
  exact (narrowIntoQuotients hy quotients).bind fun _ _ => of_tightens (.pure ())

end Action.Yields

/-! ### Tasks -/

namespace Task
variable {task : Task}

def vars (task : Task) : List VarId := [task.start, task.duration, task.resource]

theorem reads_earliestStart (h : task.vars ⊆ xs) : ReadsBounds (t := t) xs task.earliestStart :=
  .lowerBound (h (by simp [vars]))

theorem reads_latestStart (h : task.vars ⊆ xs) : ReadsBounds (t := t) xs task.latestStart :=
  .upperBound (h (by simp [vars]))

theorem reads_leastDuration (h : task.vars ⊆ xs) : ReadsBounds (t := t) xs task.leastDuration :=
  .lowerBound (h (by simp [vars]))

theorem reads_leastResource (h : task.vars ⊆ xs) : ReadsBounds (t := t) xs task.leastResource :=
  .lowerBound (h (by simp [vars]))

theorem reads_earliestCompletion (h : task.vars ⊆ xs) :
    ReadsBounds (t := t) xs task.earliestCompletion :=
  (reads_earliestStart h).bind fun _ => (reads_leastDuration h).bind fun _ => .pure _

theorem reads_latestCompletion (h : task.vars ⊆ xs) :
    ReadsBounds (t := t) xs task.latestCompletion := by
  have hduration : ReadsBounds (t := t) xs fun s => s.upperBound task.duration :=
    .upperBound (h (by simp [vars]))
  exact (reads_latestStart h).bind fun _ => hduration.bind fun _ => .pure _

theorem reads_energy (h : task.vars ⊆ xs) : ReadsBounds (t := t) xs task.energy :=
  (reads_leastDuration h).bind fun _ => (reads_leastResource h).bind fun _ => .pure _

theorem reads_window (h : task.vars ⊆ xs) : ReadsBounds (t := t) xs task.window :=
  (reads_earliestStart h).bind fun _ => (reads_latestCompletion h).bind fun _ =>
    (reads_energy h).bind fun _ => .pure _

end Task

/-! ### Sharing a resource -/

theorem taskWindows_reads {tasks : List Task} (h : ∀ task ∈ tasks, task.vars ⊆ xs) :
    ReadsBounds (t := t) xs fun s => taskWindows s tasks := by
  induction tasks with
  | nil => exact .pure []
  | cons task tasks ih =>
    have hrest := ih fun other hother => h other (List.mem_cons_of_mem _ hother)
    exact (Task.reads_window (h task List.mem_cons_self)).bind fun _ => hrest.bind fun _ => .pure _

variable {task other : Task}

theorem neverTogether_reads (h : task.vars ⊆ xs) (ho : other.vars ⊆ xs) (capacity : Int) :
    ReadsBounds (t := t) xs (neverTogether capacity task other) :=
  (Task.reads_leastDuration h).bind fun _ => (Task.reads_leastDuration ho).bind fun _ =>
    (Task.reads_leastResource h).bind fun _ => (Task.reads_leastResource ho).bind fun _ => .pure _

theorem tooLongBefore_reads (h : task.vars ⊆ xs) (ho : other.vars ⊆ xs) :
    ReadsBounds (t := t) xs (tooLongBefore task other) :=
  (Task.reads_leastDuration h).bind fun _ => (Task.reads_leastDuration ho).bind fun _ =>
    (Task.reads_earliestStart h).bind fun _ => (Task.reads_earliestStart ho).bind fun _ =>
      (Task.reads_latestCompletion ho).bind fun _ => .pure _

theorem cannotPrecede_reads (h : task.vars ⊆ xs) (ho : other.vars ⊆ xs) :
    ReadsBounds (t := t) xs (cannotPrecede task other) :=
  (Task.reads_earliestCompletion h).bind fun _ => (Task.reads_latestStart ho).bind fun _ => .pure _

theorem checkOverload_tightens {tasks : List Task} (h : ∀ task ∈ tasks, task.vars ⊆ xs)
    (capacity : Int) : (checkOverload (t := t) tasks capacity).Tightens F xs := by
  refine (reading (taskWindows_reads h)).bind fun windows => ?_
  exact .ite failing (.pure ())

variable [t.Lawful]

theorem startFrom_tightens (h : task.vars ⊆ xs) (earliest : Int) :
    (task.startFrom (t := t) earliest).Tightens F xs := by
  refine (reading (Task.reads_earliestStart h)).bind fun start => ?_
  have hstart : task.start ∈ xs := h (by simp [Task.vars])
  exact .ite (.narrowVar hstart (Narrowing.convex_atLeast earliest)) (.pure _)

theorem completeBy_tightens (h : task.vars ⊆ xs) (latest : Int) :
    (task.completeBy (t := t) latest).Tightens F xs := by
  refine (reading (Task.reads_leastDuration h)).bind fun duration => ?_
  refine (reading (Task.reads_latestStart h)).bind fun start => ?_
  have hstart : task.start ∈ xs := h (by simp [Task.vars])
  exact .ite (.narrowVar hstart (Narrowing.convex_atMost _)) (.pure _)

theorem startAfter_tightens (h : task.vars ⊆ xs) (ho : other.vars ⊆ xs) :
    (startAfter (t := t) task other).Tightens F xs := by
  refine (reading (Task.reads_earliestCompletion ho)).bind fun completion => ?_
  exact (startFrom_tightens h completion).bind fun _ => .pure ()

theorem completeBefore_tightens (h : task.vars ⊆ xs) (ho : other.vars ⊆ xs) :
    (completeBefore (t := t) task other).Tightens F xs := by
  refine (reading (Task.reads_latestStart ho)).bind fun start => ?_
  exact (completeBy_tightens h start).bind fun _ => .pure ()

theorem separate_tightens (h : task.vars ⊆ xs) (ho : other.vars ⊆ xs) :
    (separate (t := t) task other).Tightens F xs := by
  refine (onlyIf (tooLongBefore_reads h ho) (startAfter_tightens h ho)).bind fun _ => ?_
  refine (onlyIf (cannotPrecede_reads h ho) (startAfter_tightens h ho)).bind fun _ => ?_
  exact onlyIf (cannotPrecede_reads ho h) (completeBefore_tightens h ho)

theorem separateFrom_tightens {others : List Task} (h : task.vars ⊆ xs)
    (ho : ∀ other ∈ others, other.vars ⊆ xs) (capacity : Int) :
    (separateFrom (t := t) capacity task others).Tightens F xs := by
  induction others with
  | nil => exact .pure ()
  | cons other others ih =>
    have hother := ho other List.mem_cons_self
    have hrest := ih fun other hmem => ho other (List.mem_cons_of_mem _ hmem)
    simp only [separateFrom]
    split
    · exact hrest
    · exact (onlyIf (neverTogether_reads h hother capacity) (separate_tightens h hother)).bind
        fun _ => hrest

theorem separateAll_tightens {all tasks : List Task} (hall : ∀ task ∈ all, task.vars ⊆ xs)
    (h : ∀ task ∈ tasks, task.vars ⊆ xs) (capacity : Int) :
    (separateAll (t := t) all capacity tasks).Tightens F xs := by
  induction tasks with
  | nil => exact .pure ()
  | cons task tasks ih =>
    refine (separateFrom_tightens (h task List.mem_cons_self) hall capacity).bind fun _ => ?_
    exact ih fun other hmem => h other (List.mem_cons_of_mem _ hmem)

theorem propagateCumulative_tightens {tasks : List Task} (h : ∀ task ∈ tasks, task.vars ⊆ xs)
    (capacity : Int) : (propagateCumulative (t := t) tasks capacity).Tightens F xs :=
  (checkOverload_tightens h capacity).bind fun _ => separateAll_tightens h h capacity

end FiniteDomains
