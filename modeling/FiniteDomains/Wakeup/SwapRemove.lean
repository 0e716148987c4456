/-! Lists in which entries change places instead of moving up. -/
namespace FiniteDomains
variable {α : Type}

/-- Removes the entry at a position; the last entry takes its place. -/
def swapRemove (entries : List α) (position : Nat) : List α :=
  match entries.getLast? with
  | some last => (entries.set position last).dropLast
  | none => []

def swapAt (entries : List α) (i j : Nat) : List α :=
  match entries[i]?, entries[j]? with
  | some a, some b => (entries.set i b).set j a
  | _, _ => entries

@[simp] theorem length_swapAt (entries : List α) (i j : Nat) :
    (swapAt entries i j).length = entries.length := by
  simp only [swapAt]
  split <;> simp

end FiniteDomains
