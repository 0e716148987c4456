import FiniteDomains.Fault

/-! Computations on a state. One ends with a result, or with a domain that became empty, or with a
fault; only the first two leave a state to go on from. -/
namespace FiniteDomains

/-- How a computation on states of type `σ` has ended. -/
inductive Outcome (σ : Type) (α : Type) where
  | done (state : σ) (result : α)
  /-- A domain became empty; the state keeps what was changed before. -/
  | emptied (state : σ)
  | fault (cause : Fault)
  deriving Repr

namespace Outcome
variable {σ τ α β : Type}

/-- Goes on from the state with the result, unless a domain became empty. -/
def andThen (outcome : Outcome σ α) (next : σ → α → Outcome σ β) : Outcome σ β :=
  match outcome with
  | .done s a => next s a
  | .emptied s => .emptied s
  | .fault cause => .fault cause

/-- Goes on from the state in any case; the result is missing if a domain became empty. -/
def resume (outcome : Outcome σ α) (next : σ → Option α → Outcome τ β) : Outcome τ β :=
  match outcome with
  | .done s a => next s (some a)
  | .emptied s => next s none
  | .fault cause => .fault cause

def mapState (f : σ → τ) : Outcome σ α → Outcome τ α
  | .done s a => .done (f s) a
  | .emptied s => .emptied (f s)
  | .fault cause => .fault cause

def ofExcept (s : σ) : Except Fault α → Outcome σ α
  | .ok a => .done s a
  | .error cause => .fault cause

end Outcome

/-- A computation on a state of type `σ` with a result of type `α`. -/
def Action (σ : Type) (α : Type) : Type := σ → Outcome σ α

namespace Action
variable {σ α : Type}

instance : Monad (Action σ) where
  pure a := fun s => .done s a
  bind action next := fun s => (action s).andThen fun s a => next a s

def reading (f : σ → Except Fault α) : Action σ α := fun s => .ofExcept s (f s)

def lift (result : Except Fault α) : Action σ α := reading fun _ => result

def failing : Action σ α := fun s => .emptied s

def onlyIf (test : σ → Except Fault Bool) (action : Action σ Unit) : Action σ Unit := do
  let holds ← reading test
  if holds then action else pure ()

end Action
end FiniteDomains
