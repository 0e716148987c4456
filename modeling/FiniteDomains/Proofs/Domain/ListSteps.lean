import FiniteDomains.Proofs.Domain.Runs
import FiniteDomains.Proofs.Domain.Points
import FiniteDomains.Proofs.Interval.Steps

/-! Operations on ascending lists that hand each step they take without a check to a function. They
come to the operations of a value type that the function follows. -/
namespace FiniteDomains
variable {t t₀ : ValueType} {step : Int → Option Int} {P : Int → Prop}

section
variable {α β γ : Type} {f : α → β} {g : α → Option β}

theorem mapM_eq {l : List α} (h : ∀ a ∈ l, g a = some (f a)) : l.mapM g = some (l.map f) := by
  induction l with
  | nil => rfl
  | cons a l ih =>
    obtain ⟨ha, hl⟩ := List.forall_mem_cons.mp h
    simp [ha, ih hl]

theorem allM_eq {p : α → Bool} {q : α → Option Bool} {l : List α} (h : ∀ a ∈ l, q a = some (p a)) :
    l.allM q = some (l.all p) := by
  induction l with
  | nil => rfl
  | cons a l ih =>
    obtain ⟨ha, hl⟩ := List.forall_mem_cons.mp h
    rw [List.allM, List.all_cons, ha, ih hl]
    cases p a <;> rfl

/-- A walk whose steps keep to the steps of another one, as seen through a map, does so as a whole.
The steps are only compared for members of the list, about which something is known. -/
theorem foldlM_eq {f : β → α → β} {g : γ → α → Option γ} (seen : β → γ) {l : List α}
    (h : ∀ b, ∀ a ∈ l, g (seen b) a = some (seen (f b a))) (b : β) :
    l.foldlM g (seen b) = some (seen (l.foldl f b)) := by
  induction l generalizing b with
  | nil => rfl
  | cons a l ih =>
    obtain ⟨hfirst, hrest⟩ := forall_and.mp fun b => List.forall_mem_cons.mp (h b)
    rw [List.foldlM_cons, hfirst, List.foldl_cons]
    exact ih hrest _

end

namespace Runs
variable {rs qs : List Interval} {r : Interval} {lo hi v : Int}

section
variable (step)

def isConsistentBy : List Interval → Option Bool
  | [] => some true
  | [r] => some (decide (r.lo ≤ r.hi))
  | r :: q :: rs => do
    let next ← step (r.hi + 1)
    let rest ← isConsistentBy (q :: rs)
    return decide (r.lo ≤ r.hi) && decide (next < q.lo) && rest

def insertBy (lo hi : Int) (runs : List Interval) : Option (List Interval) := do
  let before ← step (lo - 1)
  let after ← step (hi + 1)
  let reaching := runs.dropWhile fun r => decide (r.hi < before)
  let merged := span lo hi (reaching.takeWhile fun r => decide (r.lo ≤ after))
  return runs.takeWhile (fun r => decide (r.hi < before)) ++
    merged :: reaching.dropWhile fun r => decide (r.lo ≤ after)

def insertCheckedBy (lo hi : Int) (runs : List Interval) :
    Option (Except Fault (List Interval)) := do
  let before ← step (lo - 1)
  let after ← step (hi + 1)
  let reaching := runs.dropWhile fun r => decide (r.hi < before)
  let merged := span lo hi (reaching.takeWhile fun r => decide (r.lo ≤ after))
  return (Interval.make merged.lo merged.hi).map fun merged =>
    runs.takeWhile (fun r => decide (r.hi < before)) ++
      merged :: reaching.dropWhile fun r => decide (r.lo ≤ after)

def ofIntervalsBy (intervals : List Interval) : Option (List Interval) :=
  intervals.foldlM (fun runs r => insertBy step r.lo r.hi runs) []

def cutBy (lo hi : Int) (r : Interval) : Option (List Interval) :=
  if r.hi < lo ∨ hi < r.lo then some [r]
  else do
    let lower ← if r.lo < lo then (step (lo - 1)).map fun last => [⟨r.lo, last⟩] else some []
    let upper ← if hi < r.hi then (step (hi + 1)).map fun first => [⟨first, r.hi⟩] else some []
    return lower ++ upper

def eraseBy (lo hi : Int) (runs : List Interval) : Option (List Interval) :=
  (runs.mapM (cutBy step lo hi)).map List.flatten

def sizeBy (runs : List Interval) : Option Nat := do
  let sizes ← runs.mapM fun r => ValueType.countBy step r.lo r.hi
  return min countLimit sizes.sum

def get?By (t : ValueType) : List Interval → Nat → Option (Option Int)
  | [], _ => some none
  | r :: rs, index => do
    let size ← ValueType.countBy step r.lo r.hi
    if index < size then (ValueType.offsetBy step t r.lo index).map some
    else get?By t rs (index - size)

def next?By (v : Int) (runs : List Interval) : Option (Option Int) := do
  let candidate ← step (v + 1)
  return (reaching? candidate runs).map fun r => max r.lo candidate

def prev?By (v : Int) (runs : List Interval) : Option (Option Int) := do
  let candidate ← step (v - 1)
  return (runs.reverse.find? fun r => decide (r.lo ≤ candidate)).map fun r => min r.hi candidate

def gapsBy (hi cursor : Int) : List Interval → Option (List Interval)
  | [] => some (lastGap hi cursor)
  | r :: rs =>
    if r.hi < cursor then gapsBy hi cursor rs
    else if hi < r.lo then some (lastGap hi cursor)
    else do
      let gap ←
        if cursor < r.lo then (step (r.lo - 1)).map fun last => [⟨cursor, last⟩] else some []
      let next ← step (r.hi + 1)
      let rest ← gapsBy hi next rs
      return gap ++ rest

def shiftBy (offset : Int) : List Interval → Option (Except Fault (List Interval))
  | [] => some (.ok [])
  | r :: rs => do
    let lo ← step (r.lo + offset)
    let hi ← step (r.hi + offset)
    match Interval.make lo hi with
    | .ok moved => (shiftBy offset rs).map (Except.map (moved :: ·))
    | .error cause => some (.error cause)

def valuesOfBy (r : Interval) : Option (List Int) :=
  if r.hi < r.lo then some [] else ValueType.ascendingBy step r.lo (r.hi - r.lo).toNat

def valuesBy (runs : List Interval) : Option (List Int) :=
  (runs.mapM (valuesOfBy step)).map List.flatten

/-- The step behind the last value that is taken is only left out at the end of an interval. -/
def takeValuesBy : Nat → List Interval → Option (List Int)
  | _, [] => some []
  | 0, _ => some []
  | limit + 1, r :: rs =>
    if r.hi < r.lo then takeValuesBy (limit + 1) rs
    else do
      let steps := (r.hi - r.lo).toNat
      let first ← ValueType.ascendingBy step r.lo (min (limit + 1) steps)
      let rest ← takeValuesBy (limit - steps) rs
      return first.take (limit + 1) ++ rest

end

theorem mem_shift {offset : Int} (hshift : shift t offset rs = .ok qs) :
    ∀ q ∈ qs, ∃ r ∈ rs,
      q.lo = t.unchecked (r.lo + offset) ∧ q.hi = t.unchecked (r.hi + offset) := by
  induction rs generalizing qs with
  | nil =>
    cases hshift
    simp
  | cons r rs ih =>
    simp only [shift, Interval.make] at hshift
    split at hshift
    · cases hrest : shift t offset rs with
      | error cause =>
        rw [hrest] at hshift
        cases hshift
      | ok rest =>
        rw [hrest] at hshift
        cases hshift
        refine List.forall_mem_cons.mpr ⟨⟨r, List.mem_cons_self, rfl, rfl⟩, fun q hq => ?_⟩
        obtain ⟨p, hp, hends⟩ := ih hrest q hq
        exact ⟨p, List.mem_cons_of_mem _ hp, hends⟩
    · cases hshift

section
variable (h : t.Follows step P)

theorem insertBy_eq (hbefore : step (lo - 1) = some (t.pred lo))
    (hafter : step (hi + 1) = some (t.succ hi)) (rs : List Interval) :
    insertBy step lo hi rs = some (insert t lo hi rs) := by
  simp only [insertBy, hbefore, hafter]
  rfl

theorem insertCheckedBy_eq (hbefore : step (lo - 1) = some (t.pred lo))
    (hafter : step (hi + 1) = some (t.succ hi)) (rs : List Interval) :
    insertCheckedBy step lo hi rs = some (insertChecked t lo hi rs) := by
  simp only [insertCheckedBy, hbefore, hafter, insertChecked, Option.bind_eq_bind,
    Option.bind_some]
  split <;> simp_all [touching, notBelow, below, above, Except.map]

theorem ofIntervalsBy_eq
    (hrs : ∀ r ∈ rs, step (r.lo - 1) = some (t.pred r.lo) ∧ step (r.hi + 1) = some (t.succ r.hi)) :
    ofIntervalsBy step rs = some (ofIntervals t rs) :=
  foldlM_eq id (fun runs r hr => insertBy_eq (hrs r hr).1 (hrs r hr).2 runs) []

include h

theorem isConsistentBy_eq (hrs : ∀ r ∈ rs, r.EndsIn P) :
    isConsistentBy step rs = some (isConsistent t rs) := by
  induction rs with
  | nil => rfl
  | cons r rs ih =>
    obtain ⟨hr, hrest⟩ := List.forall_mem_cons.mp hrs
    cases rs with
    | nil => simp [isConsistentBy, isConsistent]
    | cons q rs => simp [isConsistentBy, isConsistent, h.succ hr.hi, ih hrest]

theorem eraseBy_eq (hlo : P lo) (hhi : P hi) (rs : List Interval) :
    eraseBy step lo hi rs = some (erase t lo hi rs) := by
  have hcut (r : Interval) : cutBy step lo hi r = some (cut t lo hi r) := by
    simp only [cutBy, cut, h.pred hlo, h.succ hhi]
    split_ifs <;> rfl
  rw [eraseBy, mapM_eq fun r _ => hcut r, erase, List.flatMap_def]
  rfl

theorem sizeBy_eq (hrs : ∀ r ∈ rs, r.EndsIn P) : sizeBy step rs = some (size t rs) := by
  have hsizes : rs.mapM (fun r => ValueType.countBy step r.lo r.hi) =
      some (rs.map fun r => r.size t) :=
    mapM_eq fun r hr => h.count (hrs r hr).lo (hrs r hr).hi
  rw [sizeBy, hsizes, size, ← List.foldr_map (f := fun r => Interval.size t r)]
  rfl

theorem next?By_eq (hv : P v) (rs : List Interval) : next?By step v rs = some (next? t v rs) := by
  simp only [next?By, h.succ hv]
  rfl

theorem prev?By_eq (hv : P v) (rs : List Interval) : prev?By step v rs = some (prev? t v rs) := by
  simp only [prev?By, h.pred hv]
  rfl

theorem gapsBy_eq (hrs : ∀ r ∈ rs, r.EndsIn P) (hi cursor : Int) :
    gapsBy step hi cursor rs = some (gaps t hi cursor rs) := by
  induction rs generalizing cursor with
  | nil => rfl
  | cons r rs ih =>
    obtain ⟨hr, hrest⟩ := List.forall_mem_cons.mp hrs
    simp only [gapsBy, gaps, h.pred hr.lo, h.succ hr.hi, ih hrest]
    split_ifs <;> rfl

theorem shiftBy_eq (hrs : ∀ r ∈ rs, r.EndsIn P) {offset : Int} (hoffset : P offset) :
    shiftBy step offset rs = some (shift t offset rs) := by
  induction rs with
  | nil => rfl
  | cons r rs ih =>
    obtain ⟨hr, hrest⟩ := List.forall_mem_cons.mp hrs
    simp only [shiftBy, shift, h.take _ (.sum hr.lo hoffset), h.take _ (.sum hr.hi hoffset),
      ih hrest, Option.bind_eq_bind, Option.bind_some]
    cases Interval.make (t.unchecked (r.lo + offset)) (t.unchecked (r.hi + offset)) with
    | error cause => rfl
    | ok moved => cases shift t offset rs <;> rfl

theorem valuesBy_eq (hrs : ∀ r ∈ rs, r.EndsIn P) : valuesBy step rs = some (values t rs) := by
  have hvalues (r : Interval) (hr : r ∈ rs) : valuesOfBy step r = some (r.values t) := by
    simp only [valuesOfBy, Interval.values, h.ascending (hrs r hr).lo (hrs r hr).hi le_rfl]
    split <;> rfl
  rw [valuesBy, mapM_eq hvalues, values, List.flatMap_def]
  rfl

theorem takeValuesBy_eq (hrs : ∀ r ∈ rs, r.EndsIn P) (limit : Nat) :
    takeValuesBy step limit rs = some (takeValues t limit rs) := by
  induction rs generalizing limit with
  | nil => cases limit <;> rfl
  | cons r rs ih =>
    obtain ⟨hr, hrest⟩ := List.forall_mem_cons.mp hrs
    cases limit with
    | zero => rfl
    | succ limit =>
      have hfirst := h.ascending hr.lo hr.hi (Nat.min_le_right (limit + 1) (r.hi - r.lo).toNat)
      have htake : (t.ascending r.lo (min (limit + 1) (r.hi - r.lo).toNat)).take (limit + 1) =
          t.ascending r.lo (min limit (r.hi - r.lo).toNat) := by
        rw [ValueType.take_ascending]
        congr 1
        omega
      simp only [takeValuesBy, takeValues, ih hrest, hfirst, Option.bind_eq_bind,
        Option.bind_some, htake]
      split <;> rfl

end

theorem get?By_eq (h : t₀.Simulates t step P) (hrs : ∀ r ∈ rs, r.EndsIn P) (index : Nat) :
    get?By step t₀ rs index = some (get? t rs index) := by
  induction rs generalizing index with
  | nil => rfl
  | cons r rs ih =>
    obtain ⟨hr, hrest⟩ := List.forall_mem_cons.mp hrs
    simp only [get?By, h.count hr.lo hr.hi, ih hrest, Option.bind_eq_bind, Option.bind_some]
    rw [get?, Interval.size]
    split
    · next hindex => rw [h.offset hr.lo hr.hi hindex, Option.map_some]
    · rfl

end Runs

namespace Points
variable {vs : List Int} {frame : Interval} {lo hi v : Int}

section
variable (step)

def insertBy (lo hi : Int) (values : List Int) : Option (List Int) := do
  let range ← ValueType.ascendingBy step lo (hi - lo).toNat
  return below lo values ++ range ++ above lo hi values

def insertCheckedBy (lo hi : Int) (values : List Int) : Option (Except Fault (List Int)) :=
  if lo ≤ hi then (insertBy step lo hi values).map .ok
  else some (.error (.malformedRange lo hi))

def coversRangeBy (lo hi : Int) (values : List Int) : Option Bool := do
  let size ← ValueType.countBy step lo hi
  return decide ((restrict lo hi values).length = size)

def complementBy (frame : Interval) (values : List Int) : Option (List Int) := do
  let framed ← ValueType.ascendingBy step frame.lo (frame.hi - frame.lo).toNat
  return diff framed (restrict frame.lo frame.hi values)

def shiftBy (offset : Int) (values : List Int) : Option (List Int) :=
  values.mapM fun v => step (v + offset)

def runsBy : List Int → Option (List Interval)
  | [] => some []
  | v :: vs => do
    let rest ← runsBy vs
    match rest with
    | [] => some [⟨v, v⟩]
    | r :: rs => do
      let next ← step (v + 1)
      return if r.lo = next then ⟨v, r.hi⟩ :: rs else ⟨v, v⟩ :: r :: rs

end

variable (h : t.Follows step P)
include h

theorem insertBy_eq (hlo : P lo) (hhi : P hi) (vs : List Int) :
    insertBy step lo hi vs = some (insert t lo hi vs) := by
  rw [insertBy, h.ascending hlo hhi le_rfl]
  rfl

theorem insertCheckedBy_eq (hlo : P lo) (hhi : P hi) (vs : List Int) :
    insertCheckedBy step lo hi vs = some (insertChecked t lo hi vs) := by
  rw [insertCheckedBy, insertBy_eq h hlo hhi, insertChecked]
  split <;> rfl

theorem coversRangeBy_eq (hlo : P lo) (hhi : P hi) (vs : List Int) :
    coversRangeBy step lo hi vs = some (coversRange t lo hi vs) := by
  rw [coversRangeBy, h.count hlo hhi]
  rfl

theorem complementBy_eq (hframe : frame.EndsIn P) (vs : List Int) :
    complementBy step frame vs = some (complement t frame vs) := by
  rw [complementBy, h.ascending hframe.lo hframe.hi le_rfl]
  rfl

theorem shiftBy_eq (hvs : ∀ v ∈ vs, P v) {offset : Int} (hoffset : P offset) :
    shiftBy step offset vs = some (shift t offset vs) :=
  mapM_eq fun v hv => h.take _ (.sum (hvs v hv) hoffset)

theorem runsBy_eq (hvs : ∀ v ∈ vs, P v) : runsBy step vs = some (runs t vs) := by
  induction vs with
  | nil => rfl
  | cons v vs ih =>
    obtain ⟨hv, hrest⟩ := List.forall_mem_cons.mp hvs
    simp only [runsBy, ih hrest, runs, Option.bind_eq_bind, Option.bind_some]
    cases runs t vs with
    | nil => rfl
    | cons r rs => simp [h.succ hv]

end Points
end FiniteDomains
