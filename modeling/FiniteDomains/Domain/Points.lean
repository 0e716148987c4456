import FiniteDomains.Interval.Basic

/-! Sets of integers as strictly ascending lists of their values. -/
namespace FiniteDomains.Points
variable (t : ValueType)

def Consistent : List Int → Prop
  | [] => True
  | v :: vs => (∀ w ∈ vs.head?, v < w) ∧ Consistent vs

def isConsistent : List Int → Bool
  | [] => true
  | v :: vs => vs.head?.all (fun w => decide (v < w)) && isConsistent vs

def insertValue (v : Int) : List Int → List Int
  | [] => [v]
  | w :: ws => if v < w then v :: w :: ws else if v = w then w :: ws else w :: insertValue v ws

def ofList (values : List Int) : List Int := values.foldr insertValue []

def below (lo : Int) (values : List Int) : List Int := values.takeWhile fun v => decide (v < lo)

def notBelow (lo : Int) (values : List Int) : List Int :=
  values.dropWhile fun v => decide (v < lo)

def restrict (lo hi : Int) (values : List Int) : List Int :=
  (notBelow lo values).takeWhile fun v => decide (v ≤ hi)

def above (lo hi : Int) (values : List Int) : List Int :=
  (notBelow lo values).dropWhile fun v => decide (v ≤ hi)

def insert (lo hi : Int) (values : List Int) : List Int :=
  below lo values ++ t.ascending lo (hi - lo).toNat ++ above lo hi values

/-- As `insert`, for a range that may be inverted, which is refused. -/
def insertChecked (lo hi : Int) (values : List Int) : Except Fault (List Int) :=
  if lo ≤ hi then .ok (insert t lo hi values) else .error (.malformedRange lo hi)

def erase (lo hi : Int) (values : List Int) : List Int := below lo values ++ above lo hi values

/-- Whether all values of a range are there, which is so if as many are stored as it has. -/
def coversRange (lo hi : Int) (values : List Int) : Bool :=
  decide ((restrict lo hi values).length = t.count lo hi)

def meetsRange (lo hi : Int) (values : List Int) : Bool := !(restrict lo hi values).isEmpty

def next? (v : Int) (values : List Int) : Option Int := values.find? fun w => decide (v < w)

def prev? (v : Int) (values : List Int) : Option Int :=
  values.reverse.find? fun w => decide (w < v)

/-- The values of an ascending list that another does not hold. -/
def diff : List Int → List Int → List Int
  | [], _ => []
  | v :: vs, [] => v :: vs
  | v :: vs, w :: ws => if w = v then diff vs ws else v :: diff vs (w :: ws)

def complement (frame : Interval) (values : List Int) : List Int :=
  diff (t.ascending frame.lo (frame.hi - frame.lo).toNat) (restrict frame.lo frame.hi values)

def shift (offset : Int) (values : List Int) : List Int :=
  values.map fun v => t.unchecked (v + offset)

def runs : List Int → List Interval
  | [] => []
  | v :: vs =>
    match runs vs with
    | [] => [⟨v, v⟩]
    | r :: rs => if r.lo = t.succ v then ⟨v, r.hi⟩ :: rs else ⟨v, v⟩ :: r :: rs

end FiniteDomains.Points
