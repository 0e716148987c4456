import FiniteDomains.Domain.Points
import FiniteDomains.Domain.Runs

/-! Finite sets of values in one of two representations: the intervals of the set, or its values
one by one. Every operation is about the set; a result has the representation of the receiver. -/
namespace FiniteDomains

inductive Domain (t : ValueType) where
  | intervals (runs : List Interval)
  | sparse (values : List Int)
  deriving DecidableEq, Repr

namespace Domain
variable {t : ValueType}

instance : Membership Int (Domain t) where
  mem
    | .intervals runs, v => ∃ r ∈ runs, v ∈ r
    | .sparse values, v => v ∈ values

/-- What is stored is in the one form that stands for its set. -/
def Consistent : Domain t → Prop
  | .intervals runs => Runs.Consistent runs
  | .sparse values => Points.Consistent values

def isConsistent : Domain t → Bool
  | .intervals runs => Runs.isConsistent t runs
  | .sparse values => Points.isConsistent values

/-! ### Making domains -/

def empty : Domain t := .intervals []

def ofRange (lo hi : Int) : Except Fault (Domain t) :=
  match Interval.make lo hi with
  | .ok r => .ok (.intervals [r])
  | .error cause => .error cause

def ofIntervals (intervals : List Interval) : Domain t := .intervals (Runs.ofIntervals t intervals)

def ofValues (values : List Int) : Domain t := .sparse (Points.ofList values)

def ofRangeSparse (lo hi : Int) : Except Fault (Domain t) :=
  match Points.insertChecked t lo hi [] with
  | .ok values => .ok (.sparse values)
  | .error cause => .error cause

def remade : Domain t → Domain t
  | .intervals runs => ofIntervals runs
  | .sparse values => ofValues values

def cleared : Domain t → Domain t
  | .intervals _ => .intervals []
  | .sparse _ => .sparse []

/-! ### Asking -/

def isSparse : Domain t → Bool
  | .intervals _ => false
  | .sparse _ => true

def isEmpty : Domain t → Bool
  | .intervals runs => runs.isEmpty
  | .sparse values => values.isEmpty

/-- The number of values, stopping at the count limit. -/
def size : Domain t → Nat
  | .intervals runs => Runs.size t runs
  | .sparse values => values.length

def cardinality : Domain t → Nat
  | .intervals runs => Runs.cardinality runs
  | .sparse values => values.length

def min? : Domain t → Option Int
  | .intervals runs => Runs.min? runs
  | .sparse values => values.head?

def max? : Domain t → Option Int
  | .intervals runs => Runs.max? runs
  | .sparse values => values.getLast?

def isSingleton (d : Domain t) : Bool := d.min?.isSome && decide (d.min? = d.max?)

def value? (d : Domain t) : Option Int := if d.isSingleton then d.min? else none

/-- Whether a range has values and all of them are there. -/
def coversRange (d : Domain t) (lo hi : Int) : Bool :=
  decide (lo ≤ hi) &&
    match d with
    | .intervals runs => Runs.coversRange lo hi runs
    | .sparse values => Points.coversRange t lo hi values

def contains (d : Domain t) (v : Int) : Bool := d.coversRange v v

def meetsRange (d : Domain t) (lo hi : Int) : Bool :=
  decide (lo ≤ hi) &&
    match d with
    | .intervals runs => Runs.meetsRange lo hi runs
    | .sparse values => Points.meetsRange lo hi values

def next? (d : Domain t) (v : Int) : Option Int :=
  match d with
  | .intervals runs => Runs.next? t v runs
  | .sparse values => Points.next? v values

def prev? (d : Domain t) (v : Int) : Option Int :=
  match d with
  | .intervals runs => Runs.prev? t v runs
  | .sparse values => Points.prev? v values

/-! ### Walking through a domain -/

def values : Domain t → List Int
  | .intervals runs => Runs.values t runs
  | .sparse values => values

def takeValues (limit : Nat) : Domain t → List Int
  | .intervals runs => Runs.takeValues t limit runs
  | .sparse values => values.take limit

def get? (d : Domain t) (index : Nat) : Option Int :=
  match d with
  | .intervals runs => Runs.get? t runs index
  | .sparse values => values[index]?

/-- A value chosen by a seed, each of them by some seed. -/
def draw (d : Domain t) (seed : Nat) : Option Int := d.get? (seed % d.size)

def runs : Domain t → List Interval
  | .intervals runs => runs
  | .sparse values => Points.runs t values

def runCount (d : Domain t) : Nat := d.runs.length

def run? (d : Domain t) (index : Nat) : Option Interval := d.runs[index]?

def text (d : Domain t) : String :=
  String.ofList ('\x7b' :: ([',', ' '].intercalate (d.runs.map fun r => rangeChars r.lo r.hi)
    ++ ['\x7d']))

end Domain
end FiniteDomains
