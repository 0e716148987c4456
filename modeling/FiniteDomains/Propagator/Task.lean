import FiniteDomains.Store.Update

/-! Tasks on a shared resource, seen through the bounds of the variables for their start, their
duration and the amount that they use. -/
namespace FiniteDomains

structure Task where
  start : VarId
  duration : VarId
  resource : VarId
  deriving DecidableEq, Repr

namespace Task
variable {t : ValueType}

def earliestStart (task : Task) (s : Store t) : Except Fault Int := s.lowerBound task.start

def latestStart (task : Task) (s : Store t) : Except Fault Int := s.upperBound task.start

def leastDuration (task : Task) (s : Store t) : Except Fault Int := s.lowerBound task.duration

def leastResource (task : Task) (s : Store t) : Except Fault Int := s.lowerBound task.resource

def earliestCompletion (task : Task) (s : Store t) : Except Fault Int := do
  let start ← task.earliestStart s
  let duration ← task.leastDuration s
  return t.clampedAdd start duration

def latestCompletion (task : Task) (s : Store t) : Except Fault Int := do
  let start ← task.latestStart s
  let duration ← s.upperBound task.duration
  return t.clampedAdd start duration

def energy (task : Task) (s : Store t) : Except Fault Int := do
  let duration ← task.leastDuration s
  let resource ← task.leastResource s
  return t.clampedMul duration resource

/-- What the capacity yields up to the earliest start, and the energy of the task. -/
def envelope (task : Task) (capacity : Int) (s : Store t) : Except Fault Int := do
  let start ← task.earliestStart s
  let energy ← task.energy s
  return t.clampedAdd (t.clampedMul capacity start) energy

def startFrom (task : Task) (earliest : Int) : Action (Store t) Change := do
  let start ← Action.reading task.earliestStart
  if start < earliest then fun s => s.narrow task.start (.atLeast earliest)
  else return .unchanged

def completeBy (task : Task) (latest : Int) : Action (Store t) Change := do
  let duration ← Action.reading task.leastDuration
  let start ← Action.reading task.latestStart
  let limit := t.clampedSub latest duration
  if limit < start then fun s => s.narrow task.start (.atMost limit) else return .unchanged

end Task
end FiniteDomains
