import FiniteDomains.Domain.Basic

/-! What a narrowing did to a domain, and what a constraint waits for. -/
namespace FiniteDomains

/-- The changes of a variable that a constraint can wait for. -/
inductive Trigger where
  /-- The variable has become fixed. -/
  | ground
  /-- A bound has moved. -/
  | bound
  /-- Some value is gone. -/
  | any
  deriving DecidableEq, Repr

def Trigger.all : List Trigger := [.ground, .bound, .any]

def Trigger.name : Trigger → String
  | .ground => "Ground"
  | .bound => "Bound"
  | .any => "Any"

def Trigger.text (trigger : Trigger) : String := "[Event:" ++ trigger.name ++ "]"

/-- The most specific description of a narrowing. -/
inductive Change where
  | ground
  | bound
  | any
  | unchanged
  deriving DecidableEq, Repr

namespace Change

def name : Change → String
  | .ground => "Ground"
  | .bound => "Bound"
  | .any => "Any"
  | .unchanged => "None"

def rank : Change → Nat
  | .ground => 0
  | .bound => 1
  | .any => 2
  | .unchanged => 3

def compare (a b : Change) : Ordering := compareOfLessAndEq a.rank b.rank

def isChange (change : Change) : Bool := decide (change ≠ .unchanged)

def mostSpecific (a b : Change) : Change := if a.rank ≤ b.rank then a else b

def triggers : Change → List Trigger
  | .ground => [.ground, .bound, .any]
  | .bound => [.bound, .any]
  | .any => [.any]
  | .unchanged => []

/-- Describes the narrowing of one domain to another. A narrowing that keeps the size, which stops
at the count limit, is none. -/
def between {t : ValueType} (before after : Domain t) : Change :=
  if after.size = before.size then .unchanged
  else if after.isSingleton then .ground
  else if after.min? ≠ before.min? ∨ after.max? ≠ before.max? then .bound
  else .any

end Change
end FiniteDomains
