import FiniteDomains.Interval.Basic

/-! Sets of integers as ascending lists of intervals. Two neighbours of such a list leave out at
least one value between them, so every interval is a maximal run of the set. -/
namespace FiniteDomains.Runs
variable (t : ValueType)

/-- Ascending well formed intervals with a missing value between any two. -/
def Consistent : List Interval → Prop
  | [] => True
  | r :: rs => r.lo ≤ r.hi ∧ (∀ q ∈ rs.head?, r.hi + 1 < q.lo) ∧ Consistent rs

def isConsistent : List Interval → Bool
  | [] => true
  | r :: rs =>
    decide (r.lo ≤ r.hi) && rs.head?.all (fun q => decide (t.succ r.hi < q.lo)) && isConsistent rs

def below (lo : Int) (runs : List Interval) : List Interval :=
  runs.takeWhile fun r => decide (r.hi < t.pred lo)

def notBelow (lo : Int) (runs : List Interval) : List Interval :=
  runs.dropWhile fun r => decide (r.hi < t.pred lo)

/-- The intervals that overlap `[lo, hi]` or lie right beside it. -/
def touching (lo hi : Int) (runs : List Interval) : List Interval :=
  (notBelow t lo runs).takeWhile fun r => decide (r.lo ≤ t.succ hi)

def above (lo hi : Int) (runs : List Interval) : List Interval :=
  (notBelow t lo runs).dropWhile fun r => decide (r.lo ≤ t.succ hi)

/-- The interval from `[lo, hi]` to the ends of ascending intervals. -/
def span (lo hi : Int) : List Interval → Interval
  | [] => ⟨lo, hi⟩
  | r :: rs => ⟨min lo r.lo, max hi (rs.getLastD r).hi⟩

/-- Adds the values of `[lo, hi]`; all the intervals it touches become one. -/
def insert (lo hi : Int) (runs : List Interval) : List Interval :=
  below t lo runs ++ span lo hi (touching t lo hi runs) :: above t lo hi runs

/-- As `insert`, for a range that may be inverted; the one interval must not be. -/
def insertChecked (lo hi : Int) (runs : List Interval) : Except Fault (List Interval) :=
  let merged := span lo hi (touching t lo hi runs)
  match Interval.make merged.lo merged.hi with
  | .ok merged => .ok (below t lo runs ++ merged :: above t lo hi runs)
  | .error cause => .error cause

def ofIntervals (intervals : List Interval) : List Interval :=
  intervals.foldl (fun runs r => insert t r.lo r.hi runs) []

/-- What erasing `[lo, hi]` leaves of one interval: a part below, a part above, or both. -/
def cut (lo hi : Int) (r : Interval) : List Interval :=
  if r.hi < lo ∨ hi < r.lo then [r]
  else
    (if r.lo < lo then [⟨r.lo, t.pred lo⟩] else []) ++
      (if hi < r.hi then [⟨t.succ hi, r.hi⟩] else [])

def erase (lo hi : Int) (runs : List Interval) : List Interval := runs.flatMap (cut t lo hi)

def clip (lo hi : Int) (r : Interval) : Option Interval :=
  if r.hi < lo ∨ hi < r.lo then none else some ⟨max r.lo lo, min r.hi hi⟩

def restrict (lo hi : Int) (runs : List Interval) : List Interval := runs.filterMap (clip lo hi)

def size (runs : List Interval) : Nat :=
  min countLimit (runs.foldr (fun r count => r.size t + count) 0)

def cardinality (runs : List Interval) : Nat :=
  runs.foldr (fun r count => (r.hi + 1 - r.lo).toNat + count) 0

def min? (runs : List Interval) : Option Int := runs.head?.map Interval.lo

def max? (runs : List Interval) : Option Int := runs.getLast?.map Interval.hi

/-- The first interval that does not end below `v`. -/
def reaching? (v : Int) (runs : List Interval) : Option Interval :=
  runs.find? fun r => decide (v ≤ r.hi)

/-- Whether all values of a range are there, which is so if they are in the first interval that
reaches its start. -/
def coversRange (lo hi : Int) (runs : List Interval) : Bool :=
  (reaching? lo runs).any fun r => decide (r.lo ≤ lo) && decide (hi ≤ r.hi)

/-- Whether some value of a range is there; the lowest is in the first interval that reaches its
start. -/
def meetsRange (lo hi : Int) (runs : List Interval) : Bool :=
  (reaching? lo runs).any fun r => decide (r.lo ≤ hi)

def get? : List Interval → Nat → Option Int
  | [], _ => none
  | r :: rs, index =>
    if index < r.size t then some (t.offset r.lo index) else get? rs (index - r.size t)

def next? (v : Int) (runs : List Interval) : Option Int :=
  let candidate := t.succ v
  (reaching? candidate runs).map fun r => max r.lo candidate

def prev? (v : Int) (runs : List Interval) : Option Int :=
  let candidate := t.pred v
  (runs.reverse.find? fun r => decide (r.lo ≤ candidate)).map fun r => min r.hi candidate

def lastGap (hi cursor : Int) : List Interval := if cursor ≤ hi then [⟨cursor, hi⟩] else []

/-- The gaps that intervals leave from `cursor` to `hi`. Those that end before are passed over, and
the first one that starts behind ends the walk. -/
def gaps (hi cursor : Int) : List Interval → List Interval
  | [] => lastGap hi cursor
  | r :: rs =>
    if r.hi < cursor then gaps hi cursor rs
    else if hi < r.lo then lastGap hi cursor
    else (if cursor < r.lo then [⟨cursor, t.pred r.lo⟩] else []) ++ gaps hi (t.succ r.hi) rs

def complement (frame : Interval) (runs : List Interval) : List Interval :=
  gaps t frame.hi frame.lo runs

/-- The intervals between the ends moved by `offset`; the first one that is inverted is refused. -/
def shift (offset : Int) : List Interval → Except Fault (List Interval)
  | [] => return []
  | r :: rs => do
    let moved ← Interval.make (t.unchecked (r.lo + offset)) (t.unchecked (r.hi + offset))
    let rest ← shift offset rs
    return moved :: rest

def values (runs : List Interval) : List Int := runs.flatMap (Interval.values t)

def takeValues : Nat → List Interval → List Int
  | _, [] => []
  | 0, _ => []
  | limit + 1, r :: rs =>
    if r.hi < r.lo then takeValues (limit + 1) rs
    else
      let steps := (r.hi - r.lo).toNat
      t.ascending r.lo (min limit steps) ++ takeValues (limit - steps) rs

/-- The lexicographic order of the ascending values, decided at the first interval that differs. -/
def lexCompare : List Interval → List Interval → Ordering
  | [], [] => .eq
  | [], _ :: _ => .lt
  | _ :: _, [] => .gt
  | r :: rs, q :: qs =>
    if r.lo < q.lo then .lt
    else if q.lo < r.lo then .gt
    else if r.hi < q.hi then if rs.isEmpty then .lt else .gt
    else if q.hi < r.hi then if qs.isEmpty then .gt else .lt
    else lexCompare rs qs

end FiniteDomains.Runs
