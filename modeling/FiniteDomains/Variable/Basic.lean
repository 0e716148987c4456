import FiniteDomains.Domain.Algebra
import FiniteDomains.Outcome
import FiniteDomains.Wakeup.ActiveSet
import FiniteDomains.Wakeup.Subscriptions

/-! A variable and its versions. A change at a level above that of the current version starts a
new version and keeps the old ones, so that going back is dropping versions. -/
namespace FiniteDomains

/-- The state of a variable from one level on. -/
structure Version (t : ValueType) where
  values : Domain t
  /-- The level at which the version was started. -/
  stamp : Nat
  model : Subscriptions
  search : ActiveSet
  /-- Whether the search constraints are still those of the version before. -/
  sharesSearch : Bool
  deriving DecidableEq, Repr

/-- A variable with its current version and the older ones, the latest first. -/
structure Variable (t : ValueType) where
  id : VarId
  current : Version t
  older : List (Version t)
  deriving DecidableEq, Repr

namespace Variable
variable {t : ValueType}

/-- A variable at the root; it needs some value to start with. -/
def make (id : VarId) (values : Domain t) : Except Fault (Variable t) :=
  if values.isEmpty then .error (.emptyStart id)
  else .ok ⟨id, ⟨values, 0, .empty, .empty, false⟩, []⟩

def values (v : Variable t) : Domain t := v.current.values

def stamp (v : Variable t) : Nat := v.current.stamp

def versions (v : Variable t) : List (Version t) := v.current :: v.older

def waitingCount (v : Variable t) : Nat := v.current.model.length + v.current.search.activeCount

/-- The values lost since the current version was started, if that was at `level` or above. -/
def lostSince (v : Variable t) (level : Nat) : Domain t :=
  match v.older with
  | previous :: _ =>
    if level ≤ v.stamp then previous.values.diff v.values else v.values.cleared
  | [] => v.values.cleared

/-- The constraints to wake after a change, in order; those of the search wait for any. -/
def toWake (v : Variable t) (change : Change) : List ConstraintId :=
  change.triggers.flatMap v.current.model.waiting
    ++ if change.isChange then v.current.search.active else []

/-- Nothing can be changed at a level below the stamp. -/
def atLevel {α : Type} (v : Variable t) (level : Nat) (next : Outcome (Variable t) α) :
    Outcome (Variable t) α :=
  if v.stamp ≤ level then next else .fault (.changedAbove v.id v.stamp level)

def fork (v : Variable t) (level : Nat) (values : Domain t) : Variable t :=
  { v with
    current := { v.current with values := values, stamp := level, sharesSearch := true }
    older := v.versions }

def setValues (v : Variable t) (level : Nat) (values : Domain t) : Variable t :=
  if v.stamp < level then v.fork level values
  else { v with current := { v.current with values := values } }

/-- Drops versions until the stamp is at most `level` or the root version is reached. -/
def restore (id : VarId) (level : Nat) (current : Version t) : List (Version t) → Variable t
  | [] => ⟨id, current, []⟩
  | previous :: older =>
    if level < current.stamp then restore id level previous older
    else ⟨id, current, previous :: older⟩

def backTo (v : Variable t) (level : Nat) : Variable t := restore v.id level v.current v.older

end Variable
end FiniteDomains
