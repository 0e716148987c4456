import FiniteDomains.Domain.Algebra

/-! How a store represents its domains. -/
namespace FiniteDomains

/-- The representation of a variable that is created with a range. -/
inductive Representation where
  | intervals
  | sparse
  /-- Sparse up to the given number of values. -/
  | sparseUpTo (limit : Nat)
  deriving DecidableEq, Repr

def Representation.domain {t : ValueType} (representation : Representation) (lo hi : Int) :
    Except Fault (Domain t) :=
  match representation with
  | .intervals => Domain.ofRange lo hi
  | .sparse => Domain.ofRangeSparse lo hi
  | .sparseUpTo limit =>
    if t.count lo hi ≤ limit then Domain.ofRangeSparse lo hi else Domain.ofRange lo hi

structure StoreOptions where
  representation : Representation
  complementLimit : Nat
  deriving DecidableEq, Repr

def StoreOptions.standard : StoreOptions := ⟨.intervals, Domain.standardComplementLimit⟩

end FiniteDomains
