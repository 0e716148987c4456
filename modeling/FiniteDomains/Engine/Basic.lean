import FiniteDomains.Propagator.Basic
import FiniteDomains.Store.Level

/-! Running propagators until none of them is woken any more. -/
namespace FiniteDomains

structure Engine (t : ValueType) where
  store : Store t
  /-- The posted propagators; the position of one is its id. -/
  propagators : List (Propagator t)
  /-- Whether every fixed point that is reached is checked. -/
  checked : Bool
  /-- The propagators run so far, the latest first. -/
  runs : List ConstraintId
  deriving DecidableEq, Repr

namespace Store
variable {t : ValueType}

def cardinality (s : Store t) : Nat :=
  s.vars.foldr (fun v count => v.values.cardinality + count) 0

/-- No more constraints than this can be woken at a time, unless more come to wait. -/
def wakeable (s : Store t) : Nat :=
  s.vars.foldr (fun v count => v.waitingCount + count) s.woken.length

end Store

namespace Engine
variable {t : ValueType}

def empty (options : StoreOptions) (checked : Bool) : Engine t :=
  ⟨.empty options, [], checked, []⟩

def withStore (e : Engine t) (s : Store t) : Engine t := { e with store := s }

def forgetWoken (e : Engine t) : Engine t := e.withStore e.store.forgetWoken

def run (e : Engine t) (c : ConstraintId) (p : Propagator t) : Outcome (Engine t) Unit :=
  (p.propagate e.store).mapState fun s => { e with store := s, runs := c :: e.runs }

/-- Runs the propagator of an id. If it fails nothing stays woken. -/
def runWoken (e : Engine t) (c : ConstraintId) : Outcome (Engine t) Unit :=
  match e.propagators[c]? with
  | none => .fault .noSuchEntry
  | some p =>
    match e.run c p with
    | .done e result => .done e result
    | .emptied e => .emptied e.forgetWoken
    | .fault cause => .fault cause

/-- Runs the woken propagators in turn, less than `fuel` of them. -/
def drain : Nat → Engine t → Outcome (Engine t) Unit
  | 0, _ => .fault .unsettled
  | fuel + 1, e =>
    match e.store.popWoken with
    | (none, _) => .done e ()
    | (some c, s) => ((e.withStore s).runWoken c).andThen fun e _ => drain fuel e

/-- Runs every propagator once more; at a fixed point none of them fails or wakes another. -/
def recheck (settled : Bool) (e : Engine t) :
    ConstraintId → List (Propagator t) → Outcome (Engine t) Unit
  | _, [] => if settled then .done e () else .fault .notAtFixedPoint
  | c, p :: ps =>
    (e.run c p).resume fun e result =>
      recheck (settled && result.isSome && e.store.woken.isEmpty) e.forgetWoken (c + 1) ps

/-- Each run takes a value from some variable, or else a constraint from the queue for good, so
there are less runs than this. -/
def runBound (e : Engine t) : Nat := (e.store.cardinality + 1) * (e.store.wakeable + 1)

def propagate (e : Engine t) : Outcome (Engine t) Unit :=
  (drain e.runBound e).andThen fun e _ =>
    if e.checked then recheck true e 0 e.propagators else .done e ()

/-- Posts a propagator at the root, runs it and what it wakes. It stays posted if this fails. -/
def post (e : Engine t) (p : Propagator t) : Outcome (Engine t) ConstraintId :=
  if e.store.level ≠ 0 then .fault .propagatorBelowRoot
  else
    let c := e.propagators.length
    (p.subscribe c e.store).resume fun s subscribed =>
      let e := { e with store := s, propagators := e.propagators ++ [p] }
      match subscribed with
      | none => .emptied e
      | some () =>
        (e.runWoken c).andThen fun e _ => e.propagate.andThen fun e _ => .done e c

def pushLevel (e : Engine t) : Engine t := e.withStore e.store.pushLevel

def backtrack (e : Engine t) (level : Nat) : Except Fault (Engine t) :=
  match e.store.backtrack level with
  | .ok s => .ok (e.withStore s)
  | .error cause => .error cause

def takeRuns (e : Engine t) : List ConstraintId × Engine t :=
  (e.runs.reverse, { e with runs := [] })

end Engine
end FiniteDomains
