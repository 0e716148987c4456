import FiniteDomains.Store.Basic

/-! The levels of a store. -/
namespace FiniteDomains.Store
variable {t : ValueType}

def pushLevel (s : Store t) : Store t := { s with level := s.level + 1, trail := [] :: s.trail }

def restore (level : Nat) : List VarId → List (Variable t) → Except Fault (List (Variable t))
  | [], vars => .ok vars
  | x :: xs, vars =>
    match vars[x]? with
    | some v => restore level xs (vars.set x (v.backTo level))
    | none => .error .noSuchEntry

/-- Brings the variables on the trail above a level back to it, and forgets what was woken. -/
def backtrack (s : Store t) (level : Nat) : Except Fault (Store t) :=
  if s.level < level then .error (.backtrackUp s.level level)
  else
    let left := s.level - level
    match restore level (s.trail.take left).flatten s.vars with
    | .ok vars => .ok { s with
        vars := vars, level := level, trail := s.trail.drop left, woken := .empty }
    | .error cause => .error cause

end FiniteDomains.Store
