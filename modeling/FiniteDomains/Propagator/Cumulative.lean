import FiniteDomains.Propagator.Task

/-! Tasks that together may use no more of a resource than its capacity at any time. Windows of
time are checked for more energy than they offer, and two tasks that can never run at the same
time are kept apart. -/
namespace FiniteDomains
variable {t : ValueType}

/-- A task reduced to the window it must run in and the energy it needs there. -/
structure TaskWindow where
  earliest : Int
  latest : Int
  energy : Int
  deriving DecidableEq, Repr

def Task.window (task : Task) (s : Store t) : Except Fault TaskWindow := do
  let earliest ← task.earliestStart s
  let latest ← task.latestCompletion s
  let energy ← task.energy s
  return ⟨earliest, latest, energy⟩

def windowEnergy (t : ValueType) (windows : List TaskWindow) (start finish : Int) : Int :=
  (windows.filter fun w => decide (start ≤ w.earliest) && decide (w.latest ≤ finish)).foldl
    (fun energy w => t.clampedAdd energy w.energy) 0

/-- Whether more energy is needed between two times than the capacity yields. -/
def windowOverloaded (t : ValueType) (capacity : Int) (windows : List TaskWindow)
    (start finish : Int) : Bool :=
  decide (start < finish) &&
    decide (t.clampedMul capacity (t.clampedSub finish start)
      < windowEnergy t windows start finish)

def overloaded (t : ValueType) (capacity : Int) (windows : List TaskWindow) : Bool :=
  windows.any fun first => windows.any fun last =>
    windowOverloaded t capacity windows first.earliest last.latest

def taskWindows (s : Store t) : List Task → Except Fault (List TaskWindow)
  | [] => return []
  | task :: tasks => do
    let w ← task.window s
    let ws ← taskWindows s tasks
    return w :: ws

def checkOverload (tasks : List Task) (capacity : Int) : Action (Store t) Unit := do
  let windows ← Action.reading fun s => taskWindows s tasks
  if overloaded t capacity windows then Action.failing else return ()

/-- Whether two tasks both take time and together need more than the capacity. -/
def neverTogether (capacity : Int) (first second : Task) (s : Store t) : Except Fault Bool := do
  let duration ← first.leastDuration s
  let duration' ← second.leastDuration s
  let resource ← first.leastResource s
  let resource' ← second.leastResource s
  return decide (0 < duration) && decide (0 < duration')
    && decide (capacity < t.clampedAdd resource resource')

/-- Whether the task and the other do not both fit in before the other must be complete. -/
def tooLongBefore (task other : Task) (s : Store t) : Except Fault Bool := do
  let duration ← task.leastDuration s
  let duration' ← other.leastDuration s
  let start ← task.earliestStart s
  let start' ← other.earliestStart s
  let latest ← other.latestCompletion s
  return decide (latest < t.clampedAdd (min start start') (t.clampedAdd duration duration'))

/-- Whether the first task cannot be complete before the second must start. -/
def cannotPrecede (first second : Task) (s : Store t) : Except Fault Bool := do
  let completion ← first.earliestCompletion s
  let start ← second.latestStart s
  return decide (start < completion)

def startAfter (task other : Task) : Action (Store t) Unit := do
  let completion ← Action.reading other.earliestCompletion
  let _ ← task.startFrom completion
  return ()

def completeBefore (task other : Task) : Action (Store t) Unit := do
  let start ← Action.reading other.latestStart
  let _ ← task.completeBy start
  return ()

def separate (task other : Task) : Action (Store t) Unit := do
  Action.onlyIf (tooLongBefore task other) (startAfter task other)
  Action.onlyIf (cannotPrecede task other) (startAfter task other)
  Action.onlyIf (cannotPrecede other task) (completeBefore task other)

def separateFrom (capacity : Int) (task : Task) : List Task → Action (Store t) Unit
  | [] => return ()
  | other :: others => do
    if other = task then pure ()
    else Action.onlyIf (neverTogether capacity task other) (separate task other)
    separateFrom capacity task others

def separateAll (all : List Task) (capacity : Int) : List Task → Action (Store t) Unit
  | [] => return ()
  | task :: tasks => do
    separateFrom capacity task all
    separateAll all capacity tasks

def propagateCumulative (tasks : List Task) (capacity : Int) : Action (Store t) Unit := do
  checkOverload tasks capacity
  separateAll tasks capacity tasks

end FiniteDomains
