import FiniteDomains.Proofs.Outcome
import FiniteDomains.Store.Level
import FiniteDomains.Store.Update

/-! Sequences of requests to a store. A request that empties a domain is answered so and the next
one follows on what it has left; a fault ends the sequence. -/
namespace FiniteDomains

inductive StoreRequest (t : ValueType) where
  | addRange (lo hi : Int)
  | addNamedRange (lo hi : Int) (name : String)
  | addValues (values : List Int)
  | addVariable (d : Domain t)
  | narrow (x : VarId) (narrowing : Narrowing t)
  | subscribe (x : VarId) (c : ConstraintId) (trigger : Trigger)
  | unsubscribe (x : VarId) (c : ConstraintId)
  | activate (x : VarId) (c : ConstraintId)
  | deactivate (x : VarId) (c : ConstraintId)
  | deactivateAt (x : VarId) (position : Nat)
  | pushLevel
  | backtrack (level : Nat)
  | popWoken
  | forgetWoken

inductive StoreReply where
  | added (x : VarId)
  | changed (change : Change)
  | emptied
  | flag (answer : Bool)
  | trigger (removed : Option Trigger)
  | popped (c : Option ConstraintId)
  | finished
  deriving DecidableEq, Repr

namespace Store
variable {t : ValueType} {α : Type}

/-- The reply to a request that may empty a domain, with the store it leaves. -/
def replying (answer : α → StoreReply) : Outcome (Store t) α → Except Fault (StoreReply × Store t)
  | .done s a => .ok (answer a, s)
  | .emptied s => .ok (.emptied, s)
  | .fault cause => .error cause

def adding : Except Fault (VarId × Store t) → Except Fault (StoreReply × Store t)
  | .ok (x, s) => .ok (.added x, s)
  | .error cause => .error cause

def perform (s : Store t) : StoreRequest t → Except Fault (StoreReply × Store t)
  | .addRange lo hi => adding (s.addRange lo hi)
  | .addNamedRange lo hi name => adding (s.addNamedRange lo hi name)
  | .addValues values => adding (s.addValues values)
  | .addVariable d => adding (s.addVariable d)
  | .narrow x narrowing => replying .changed (s.narrow x narrowing)
  | .subscribe x c trigger => replying .flag (s.subscribe x c trigger)
  | .unsubscribe x c => replying .trigger (s.unsubscribe x c)
  | .activate x c => replying .flag (s.activate x c)
  | .deactivate x c => replying .flag (s.deactivate x c)
  | .deactivateAt x position => replying (fun _ => .finished) (s.deactivateAt x position)
  | .pushLevel => .ok (.finished, s.pushLevel)
  | .backtrack level =>
    match s.backtrack level with
    | .ok s => .ok (.finished, s)
    | .error cause => .error cause
  | .popWoken => .ok (.popped s.popWoken.1, s.popWoken.2)
  | .forgetWoken => .ok (.finished, s.forgetWoken)

def performAll (s : Store t) : List (StoreRequest t) → Except Fault (List StoreReply × Store t)
  | [] => .ok ([], s)
  | request :: requests => do
    let (reply, s) ← s.perform request
    let (replies, s) ← s.performAll requests
    return (reply :: replies, s)

/-- A store that some requests make of an empty one. -/
def Reachable (s : Store t) : Prop :=
  ∃ options requests replies, (empty options).performAll requests = .ok (replies, s)

theorem performAll_cons {s s' : Store t} {request : StoreRequest t}
    {requests : List (StoreRequest t)} {replies : List StoreReply}
    (h : s.performAll (request :: requests) = .ok (replies, s')) :
    ∃ reply s₁ rest, s.perform request = .ok (reply, s₁) ∧
      s₁.performAll requests = .ok (rest, s') ∧ replies = reply :: rest := by
  simp only [performAll, bind, Except.bind] at h
  split at h
  · cases h
  · next first hp =>
    split at h
    · cases h
    · next rest hr =>
      cases h
      exact ⟨first.1, first.2, rest.1, hp, hr, rfl⟩

theorem replying_agree {S : Store t → Store t → Prop} {outcome outcome' : Outcome (Store t) α}
    (h : outcome.Matches S outcome') (answer : α → StoreReply) :
    Agree (fun r r' => r.1 = r'.1 ∧ S r.2 r'.2) (replying answer outcome)
      (replying answer outcome') := by
  cases h with
  | done a h => exact .ok ⟨rfl, h⟩
  | emptied h => exact .ok ⟨rfl, h⟩
  | fault cause => exact .error cause

theorem performAll_keeps {P : Store t → Prop} {requests : List (StoreRequest t)}
    (step : ∀ request ∈ requests, ∀ s reply s',
      P s → s.perform request = .ok (reply, s') → P s') {s s' : Store t}
    {replies : List StoreReply} (start : P s)
    (h : s.performAll requests = .ok (replies, s')) : P s' := by
  induction requests generalizing s replies with
  | nil => cases h; exact start
  | cons request requests ih =>
    obtain ⟨reply, s₁, rest, hp, hr, -⟩ := performAll_cons h
    exact ih (fun r hr => step r (List.mem_cons_of_mem _ hr))
      (step request List.mem_cons_self s reply s₁ start hp) hr

end Store
end FiniteDomains
