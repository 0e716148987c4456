import FiniteDomains.Domain.Algebra

/-! Equality of domains as sets, and the lexicographic order of their ascending values. -/
namespace FiniteDomains.Domain
variable {t : ValueType}

/-- Whether two domains have the same values: as many, and each of one in the other. -/
def sameValues (d e : Domain t) : Bool := decide (d.size = e.size) && d.includes e && e.includes d

def lexCompare (d e : Domain t) : Ordering := Runs.lexCompare d.runs e.runs

end FiniteDomains.Domain
