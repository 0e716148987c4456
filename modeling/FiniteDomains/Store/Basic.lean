import FiniteDomains.Store.Names
import FiniteDomains.Store.Options
import FiniteDomains.Variable.Basic
import FiniteDomains.Wakeup.Queue

/-! The variables of a problem, the level they are changed at, and the constraints that their
changes have woken. The trail names for each level the variables with a version of that level. -/
namespace FiniteDomains

structure Store (t : ValueType) where
  /-- The variables with their versions; the position of one is its id. -/
  vars : List (Variable t)
  level : Nat
  /-- For each level above the root, the current one first, the variables that forked at it. -/
  trail : List (List VarId)
  woken : WakeQueue
  names : VariableNames
  options : StoreOptions
  deriving DecidableEq, Repr

namespace Store
variable {t : ValueType}

def empty (options : StoreOptions) : Store t := ⟨[], 0, [], .empty, .empty, options⟩

/-! ### Adding variables -/

def addVariable (s : Store t) (d : Domain t) : Except Fault (VarId × Store t) :=
  if s.level = 0 then
    match Variable.make s.vars.length d with
    | .ok v => .ok (s.vars.length, { s with vars := s.vars ++ [v] })
    | .error cause => .error cause
  else .error (.variableBelowRoot s.level)

/-- Adds a variable with the values of `[lo, hi]`, represented as the options say. -/
def addRange (s : Store t) (lo hi : Int) : Except Fault (VarId × Store t) :=
  if hi < lo then .error (.emptyVariable lo hi)
  else
    match s.options.representation.domain lo hi with
    | .ok d => s.addVariable d
    | .error cause => .error cause

def addNamedRange (s : Store t) (lo hi : Int) (name : String) :
    Except Fault (VarId × Store t) :=
  match s.addRange lo hi with
  | .ok (x, s) => .ok (x, { s with names := s.names.add x name })
  | .error cause => .error cause

def addValues (s : Store t) (values : List Int) : Except Fault (VarId × Store t) :=
  s.addVariable (.ofValues values)

def nameOf (s : Store t) (x : VarId) : Option String := s.names.nameOf x

def varNamed (s : Store t) (name : String) : Option VarId := s.names.varNamed name

/-! ### Reading domains -/

def var (s : Store t) (x : VarId) : Except Fault (Variable t) :=
  match s.vars[x]? with
  | some v => .ok v
  | none => .error .noSuchEntry

def domain (s : Store t) (x : VarId) : Except Fault (Domain t) := do
  let v ← s.var x
  return v.values

/-- An end of a domain, which has one because no domain of a store is empty. -/
def bound : Option Int → Except Fault Int
  | some v => .ok v
  | none => .error .emptyInStore

def lowerBound (s : Store t) (x : VarId) : Except Fault Int := do
  let d ← s.domain x
  bound d.min?

def upperBound (s : Store t) (x : VarId) : Except Fault Int := do
  let d ← s.domain x
  bound d.max?

def bounds (s : Store t) (x : VarId) : Except Fault Interval := do
  let lo ← s.lowerBound x
  let hi ← s.upperBound x
  Interval.make lo hi

def isFixed (s : Store t) (x : VarId) : Except Fault Bool := do
  let d ← s.domain x
  return d.isSingleton

def complement (s : Store t) (x : VarId) (frame : Interval) : Except Fault (Domain t) := do
  let d ← s.domain x
  d.complementUpTo s.options.complementLimit frame

end Store
end FiniteDomains
