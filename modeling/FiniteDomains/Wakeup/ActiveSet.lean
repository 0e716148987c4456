import FiniteDomains.Fault
import FiniteDomains.Wakeup.SwapRemove

/-! The constraints that a search switches on and off for a variable. One that is switched off is
parked, so that it can be switched on again in place of a new entry. -/
namespace FiniteDomains

/-- The active constraints and, behind them, the parked ones. -/
structure ActiveSet where
  entries : List ConstraintId
  /-- The position of the first parked entry. -/
  activeCount : Nat
  activeCount_le : activeCount ≤ entries.length
  deriving DecidableEq, Repr

namespace ActiveSet

def empty : ActiveSet := ⟨[], 0, Nat.le_refl 0⟩

def active (s : ActiveSet) : List ConstraintId := s.entries.take s.activeCount

def parked (s : ActiveSet) : List ConstraintId := s.entries.drop s.activeCount

def isActive (s : ActiveSet) (c : ConstraintId) : Bool := s.active.contains c

/-- The entries with a constraint at the first parked position. If it was parked it changes places
with the first parked entry, else that entry makes room and moves to the end. -/
def entriesWith (s : ActiveSet) (c : ConstraintId) : List ConstraintId :=
  match s.parked.idxOf? c, s.entries[s.activeCount]? with
  | some position, _ => swapAt s.entries s.activeCount (s.activeCount + position)
  | none, none => s.entries ++ [c]
  | none, some displaced => s.entries.set s.activeCount c ++ [displaced]

theorem activeCount_lt_entriesWith (s : ActiveSet) (c : ConstraintId) :
    s.activeCount < (s.entriesWith c).length := by
  have hle := s.activeCount_le
  simp only [entriesWith]
  split
  · next position hposition =>
    have hparked : position < s.parked.length := by
      obtain ⟨hlt, -⟩ := List.idxOf?_eq_some_iff.mp hposition
      exact hlt
    simp only [parked, List.length_drop] at hparked
    rw [length_swapAt]
    omega
  · simp only [List.length_append, List.length_singleton]
    omega
  · simp only [List.length_append, List.length_set, List.length_singleton]
    omega

def activate (s : ActiveSet) (c : ConstraintId) : Bool × ActiveSet :=
  if s.isActive c then (false, s)
  else (true, ⟨s.entriesWith c, s.activeCount + 1, s.activeCount_lt_entriesWith c⟩)

/-- Parks the active entry at a position; the last active entry takes its place. -/
def park (s : ActiveSet) (position : Nat) : ActiveSet where
  entries := swapAt s.entries position (s.activeCount - 1)
  activeCount := s.activeCount - 1
  activeCount_le := by
    have hle := s.activeCount_le
    rw [length_swapAt]
    omega

def deactivate (s : ActiveSet) (c : ConstraintId) : Bool × ActiveSet :=
  match s.active.idxOf? c with
  | some position => (true, s.park position)
  | none => (false, s)

def deactivateAt (s : ActiveSet) (position : Nat) : Except Fault ActiveSet :=
  if position < s.activeCount then .ok (s.park position)
  else .error (.notActive position s.activeCount)

/-- A copy for a new version of the variable, which does not know the parked constraints. -/
def copy (s : ActiveSet) : ActiveSet where
  entries := s.active
  activeCount := s.activeCount
  activeCount_le :=
    Nat.le_of_eq (by rw [active, List.length_take, Nat.min_eq_left s.activeCount_le])

end ActiveSet
end FiniteDomains
