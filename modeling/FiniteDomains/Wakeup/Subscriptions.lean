import FiniteDomains.Change
import FiniteDomains.Text
import FiniteDomains.Wakeup.SwapRemove

/-! The constraints of the model that wait for a variable, by the change they wait for. -/
namespace FiniteDomains

/-- For each trigger the constraints that wait for it, each of them once. -/
structure Subscriptions where
  ground : List ConstraintId
  bound : List ConstraintId
  any : List ConstraintId
  deriving DecidableEq, Repr

namespace Subscriptions

def empty : Subscriptions := ⟨[], [], []⟩

def waiting (m : Subscriptions) : Trigger → List ConstraintId
  | .ground => m.ground
  | .bound => m.bound
  | .any => m.any

def setWaiting (m : Subscriptions) (trigger : Trigger) (entries : List ConstraintId) :
    Subscriptions :=
  match trigger with
  | .ground => { m with ground := entries }
  | .bound => { m with bound := entries }
  | .any => { m with any := entries }

def contains (m : Subscriptions) (c : ConstraintId) : Bool :=
  Trigger.all.any fun trigger => (m.waiting trigger).contains c

def length (m : Subscriptions) : Nat := m.ground.length + m.bound.length + m.any.length

def isEmpty (m : Subscriptions) : Bool := decide (m.length = 0)

def insert (m : Subscriptions) (c : ConstraintId) (trigger : Trigger) : Bool × Subscriptions :=
  if (m.waiting trigger).contains c then (false, m)
  else (true, m.setWaiting trigger (m.waiting trigger ++ [c]))

def trigger? (m : Subscriptions) (c : ConstraintId) : Option Trigger :=
  Trigger.all.find? fun trigger => (m.waiting trigger).contains c

/-- Takes a constraint from the most specific trigger that it waits for. -/
def erase (m : Subscriptions) (c : ConstraintId) : Option Trigger × Subscriptions :=
  match m.trigger? c with
  | none => (none, m)
  | some trigger =>
    let entries := m.waiting trigger
    (some trigger, m.setWaiting trigger (swapRemove entries (entries.idxOf c)))

end Subscriptions
end FiniteDomains
