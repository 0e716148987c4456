import FiniteDomains.Variable.Basic

/-! The constraints that wait for a variable, version by version. A request that changes nothing
starts no version. -/
namespace FiniteDomains.Variable
variable {t : ValueType}

/-- Goes on with a current version of `level`, which has the values of the current one. -/
def atOwnVersion {α : Type} (v : Variable t) (level : Nat)
    (next : Variable t → Outcome (Variable t) α) : Outcome (Variable t) α :=
  v.atLevel level (next (if v.stamp < level then v.fork level v.values else v))

def setModel (v : Variable t) (model : Subscriptions) : Variable t :=
  { v with current := { v.current with model := model } }

/-- The search constraints of this version alone: a copy if it shares those of the one before. -/
def ownSearch (v : Variable t) : ActiveSet :=
  if v.current.sharesSearch then v.current.search.copy else v.current.search

def setSearch (v : Variable t) (search : ActiveSet) : Variable t :=
  { v with current := { v.current with search := search, sharesSearch := false } }

def subscribe (v : Variable t) (level : Nat) (c : ConstraintId) (trigger : Trigger) :
    Outcome (Variable t) Bool :=
  if (v.current.model.waiting trigger).contains c then .done v false
  else v.atOwnVersion level fun v =>
    let changed := v.current.model.insert c trigger
    .done (v.setModel changed.2) changed.1

/-- Takes a constraint of the model from the most specific trigger that it waits for. -/
def unsubscribe (v : Variable t) (level : Nat) (c : ConstraintId) :
    Outcome (Variable t) (Option Trigger) :=
  if v.current.model.contains c then v.atOwnVersion level fun v =>
    let changed := v.current.model.erase c
    .done (v.setModel changed.2) changed.1
  else .done v none

def activate (v : Variable t) (level : Nat) (c : ConstraintId) : Outcome (Variable t) Bool :=
  if v.current.search.isActive c then .done v false
  else v.atOwnVersion level fun v =>
    let changed := v.ownSearch.activate c
    .done (v.setSearch changed.2) changed.1

def deactivate (v : Variable t) (level : Nat) (c : ConstraintId) : Outcome (Variable t) Bool :=
  if v.current.search.isActive c then v.atOwnVersion level fun v =>
    let changed := v.ownSearch.deactivate c
    .done (v.setSearch changed.2) changed.1
  else .done v false

def deactivateAt (v : Variable t) (level position : Nat) : Outcome (Variable t) Unit :=
  v.atOwnVersion level fun v =>
    match v.ownSearch.deactivateAt position with
    | .ok search => .done (v.setSearch search) ()
    | .error cause => .fault cause

end FiniteDomains.Variable
