import FiniteDomains.Text

/-! The names of variables, which are looked up both ways. -/
namespace FiniteDomains

section
variable {κ β : Type} [DecidableEq κ]

def unbind (key : κ) (bindings : List (κ × β)) : List (κ × β) :=
  bindings.filter fun binding => decide (binding.1 ≠ key)

def rebind (key : κ) (value : β) (bindings : List (κ × β)) : List (κ × β) :=
  (key, value) :: unbind key bindings

end

/-- The bindings of variables to names and of names to variables. -/
structure VariableNames where
  byVariable : List (VarId × String)
  byName : List (String × VarId)
  deriving DecidableEq, Repr

namespace VariableNames

def empty : VariableNames := ⟨[], []⟩

def nameOf (names : VariableNames) (x : VarId) : Option String := names.byVariable.lookup x

def varNamed (names : VariableNames) (name : String) : Option VarId := names.byName.lookup name

/-- Names a variable. A name that it had before does not lead to it any more. -/
def add (names : VariableNames) (x : VarId) (name : String) : VariableNames where
  byVariable := rebind x name names.byVariable
  byName := rebind name x <|
    match names.nameOf x with
    | some previous => unbind previous names.byName
    | none => names.byName

end VariableNames
end FiniteDomains
