import FiniteDomains.Store.Basic
import FiniteDomains.Variable.Narrowing
import FiniteDomains.Variable.Waiting

/-! Changing the variables of a store at its level, and waking the constraints that wait for what
has changed. -/
namespace FiniteDomains.Store
variable {t : ValueType}

def noteFork (s : Store t) (x : VarId) : Except Fault (Store t) :=
  match s.trail with
  | forked :: lower => .ok { s with trail := (x :: forked) :: lower }
  | [] => .error .noSuchEntry

/-- Puts a changed variable back. If it has forked at the current level it goes on the trail. -/
def replace (s : Store t) (x : VarId) (before after : Variable t) : Except Fault (Store t) :=
  let changed := { s with vars := s.vars.set x after }
  if before.stamp < s.level ∧ after.stamp = s.level then changed.noteFork x else .ok changed

def update {α : Type} (s : Store t) (x : VarId)
    (change : Variable t → Nat → Outcome (Variable t) α) : Outcome (Store t) α :=
  match s.vars[x]? with
  | none => .fault .noSuchEntry
  | some v =>
    (change v s.level).resume fun after result =>
      match s.replace x v after, result with
      | .ok s, some a => .done s a
      | .ok s, none => .emptied s
      | .error cause, _ => .fault cause

/-- Wakes the constraints that wait for what has happened to a variable. -/
def wake (s : Store t) (x : VarId) (change : Change) : Store t :=
  match s.vars[x]? with
  | some v => { s with woken := s.woken.enqueueAll (v.toWake change) }
  | none => s

def narrow (s : Store t) (x : VarId) (narrowing : Narrowing t) : Outcome (Store t) Change :=
  (s.update x fun v level => v.narrow level narrowing).andThen fun s change =>
    .done (s.wake x change) change

def subscribe (s : Store t) (x : VarId) (c : ConstraintId) (trigger : Trigger) :
    Outcome (Store t) Bool :=
  s.update x fun v level => v.subscribe level c trigger

def unsubscribe (s : Store t) (x : VarId) (c : ConstraintId) :
    Outcome (Store t) (Option Trigger) :=
  s.update x fun v level => v.unsubscribe level c

def activate (s : Store t) (x : VarId) (c : ConstraintId) : Outcome (Store t) Bool :=
  s.update x fun v level => v.activate level c

def deactivate (s : Store t) (x : VarId) (c : ConstraintId) : Outcome (Store t) Bool :=
  s.update x fun v level => v.deactivate level c

def deactivateAt (s : Store t) (x : VarId) (position : Nat) : Outcome (Store t) Unit :=
  s.update x fun v level => v.deactivateAt level position

/-! ### The woken constraints -/

def popWoken (s : Store t) : Option ConstraintId × Store t :=
  match s.woken.pop? with
  | some (c, rest) => (some c, { s with woken := rest })
  | none => (none, s)

def forgetWoken (s : Store t) : Store t := { s with woken := .empty }

def drainWoken (s : Store t) : List ConstraintId × Store t := (s.woken.waiting, s.forgetWoken)

end FiniteDomains.Store
