import FiniteDomains.Variable.Basic

/-! The ways to narrow a variable. -/
namespace FiniteDomains

inductive Narrowing (t : ValueType) where
  | within (lo hi : Int)
  | atLeast (lo : Int)
  | atMost (hi : Int)
  | outside (lo hi : Int)
  | equalTo (v : Int)
  | memberOf (d : Domain t)
  /-- The values that are `offset` above a value of `d`. -/
  | shiftedMemberOf (d : Domain t) (offset : Int)
  deriving DecidableEq, Repr

namespace Variable
variable {t : ValueType}

/-- Takes over narrowed values, unless there are none or they are as many as before. -/
def install (v : Variable t) (level : Nat) (narrowed : Domain t) : Outcome (Variable t) Change :=
  v.atLevel level
    (if narrowed.isEmpty then .emptied v
    else
      let change := Change.between v.values narrowed
      .done (if change.isChange then v.setValues level narrowed else v) change)

def liesWithin (v : Variable t) (lo hi : Int) : Bool :=
  v.values.min?.any (fun least => decide (lo ≤ least))
    && v.values.max?.any (fun greatest => decide (greatest ≤ hi))

def keepRange (v : Variable t) (level : Nat) (lo hi : Int) : Outcome (Variable t) Change :=
  if hi < lo then .emptied v
  else if v.liesWithin lo hi then v.atLevel level (.done v .unchanged)
  else v.install level (v.values.restrict lo hi)

def dropRange (v : Variable t) (level : Nat) (lo hi : Int) : Outcome (Variable t) Change :=
  if v.values.meetsRange lo hi then v.install level (v.values.eraseRange lo hi)
  else v.atLevel level (.done v .unchanged)

def keepShifted (v : Variable t) (level : Nat) (d : Domain t) (offset : Int) :
    Outcome (Variable t) Change :=
  if offset = 0 then v.install level (v.values.inter d)
  else
    match d.shift offset with
    | .ok moved => v.install level (v.values.inter moved)
    | .error cause => .fault cause

/-- Narrows a variable at a level. It is left as it is if no value would remain. -/
def narrow (v : Variable t) (level : Nat) : Narrowing t → Outcome (Variable t) Change
  | .within lo hi => v.keepRange level lo hi
  | .atLeast lo =>
    match v.values.max? with
    | some greatest => v.keepRange level lo greatest
    | none => .emptied v
  | .atMost hi =>
    match v.values.min? with
    | some least => v.keepRange level least hi
    | none => .emptied v
  | .outside lo hi => v.dropRange level lo hi
  | .equalTo w => v.keepRange level w w
  | .memberOf d => v.keepShifted level d 0
  | .shiftedMemberOf d offset => v.keepShifted level d offset

end Variable
end FiniteDomains
