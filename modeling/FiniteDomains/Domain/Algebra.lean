import FiniteDomains.Domain.Basic

/-! Union, difference, intersection, complement and translation of domains. An operation on two
domains walks the ranges of the second one and applies the range operation of the first. -/
namespace FiniteDomains.Domain
variable {t : ValueType}

/-- Adds the values of a range that is not inverted. -/
def insertRange (d : Domain t) (lo hi : Int) : Domain t :=
  match d with
  | .intervals runs => .intervals (Runs.insert t lo hi runs)
  | .sparse values => .sparse (Points.insert t lo hi values)

/-- Adds the values of a range. An inverted one is refused, unless the intervals that it touches
make a proper interval of it. -/
def insertRangeChecked (d : Domain t) (lo hi : Int) : Except Fault (Domain t) :=
  match d with
  | .intervals runs =>
    match Runs.insertChecked t lo hi runs with
    | .ok runs => .ok (.intervals runs)
    | .error cause => .error cause
  | .sparse values =>
    match Points.insertChecked t lo hi values with
    | .ok values => .ok (.sparse values)
    | .error cause => .error cause

def eraseRange (d : Domain t) (lo hi : Int) : Domain t :=
  if hi < lo then d
  else
    match d with
    | .intervals runs => .intervals (Runs.erase t lo hi runs)
    | .sparse values => .sparse (Points.erase lo hi values)

def erase (d : Domain t) (v : Int) : Domain t := d.eraseRange v v

def restrict (d : Domain t) (lo hi : Int) : Domain t :=
  if hi < lo then d.cleared
  else
    match d with
    | .intervals runs => .intervals (Runs.restrict lo hi runs)
    | .sparse values => .sparse (Points.restrict lo hi values)

/-- The ranges of a domain as an operand: its intervals, or its values one by one. -/
def operandRanges : Domain t → List Interval
  | .intervals runs => runs
  | .sparse values => values.map fun v => ⟨v, v⟩

def union (d e : Domain t) : Domain t :=
  e.operandRanges.foldl (fun d r => d.insertRange r.lo r.hi) d

def diff (d e : Domain t) : Domain t :=
  e.operandRanges.foldl (fun d r => d.eraseRange r.lo r.hi) d

/-- The values of both domains. If only the first one is sparse, its values are looked for in the
second; otherwise its parts in the ranges of the second are added one after another. -/
def inter (d e : Domain t) : Domain t :=
  if d.isSparse && !e.isSparse then ofValues (d.values.filter e.contains)
  else
    e.operandRanges.foldl
      (fun result r =>
        (d.restrict r.lo r.hi).operandRanges.foldl
          (fun result piece => result.insertRange piece.lo piece.hi) result)
      d.cleared

def includes (d e : Domain t) : Bool := e.operandRanges.all fun r => d.coversRange r.lo r.hi

/-- Whether the domains have a value in common. If only the first one is sparse, its values are
looked for in the second. -/
def meets (d e : Domain t) : Bool :=
  if d.isSparse && !e.isSparse then d.values.any e.contains
  else e.operandRanges.any fun r => d.meetsRange r.lo r.hi

/-- Every value moved by `offset`. The domain is made again of its moved intervals or values. -/
def moved (d : Domain t) (offset : Int) : Except Fault (Domain t) :=
  match d with
  | .intervals runs =>
    match Runs.shift t offset runs with
    | .ok runs => .ok (ofIntervals runs)
    | .error cause => .error cause
  | .sparse values => .ok (ofValues (Points.shift t offset values))

/-- Every value moved by an offset of the universe; values that leave the universe are dropped. -/
def shift (d : Domain t) (offset : Int) : Except Fault (Domain t) :=
  if (Interval.whole t).contains offset then
    if offset = 0 then .ok d
    else
      match d.moved offset with
      | .ok e => .ok (e.restrict t.minValue t.maxValue)
      | .error cause => .error cause
  else .error (.shiftOutside offset)

def standardComplementLimit : Nat := 65536

/-- The values of `frame` that are not in the domain. A sparse domain is only complemented over a
frame of at most `limit` values. -/
def complementUpTo (d : Domain t) (limit : Nat) (frame : Interval) : Except Fault (Domain t) :=
  match d with
  | .intervals runs => .ok (.intervals (Runs.complement t frame runs))
  | .sparse values =>
    if frame.size t ≤ limit then .ok (.sparse (Points.complement t frame values))
    else .error (.sparseComplement frame.lo frame.hi limit)

def complement (d : Domain t) (frame : Interval) : Except Fault (Domain t) :=
  d.complementUpTo standardComplementLimit frame

end FiniteDomains.Domain
