import FiniteDomains.Domain.Description
import FiniteDomains.Domain.Order
import FiniteDomains.Proofs.Domain.Basic
import FiniteDomains.Proofs.Domain.Insertion
import FiniteDomains.Proofs.Domain.ListSteps

/-! Operations on domains that hand each step they take without a check to a function. If a value
type follows the function on the values that are stored and asked about, they come to the operations
over that type, for whichever type the domains are written. -/
namespace FiniteDomains
variable {t t' t₀ : ValueType} {step : Int → Option Int} {P : Int → Prop}

namespace Runs
variable {rs : List Interval} {lo hi : Int}

theorem restrict_endsIn (hrs : ∀ r ∈ rs, r.EndsIn P) (hlo : P lo) (hhi : P hi) :
    ∀ r ∈ restrict lo hi rs, r.EndsIn P := by
  intro q hq
  obtain ⟨r, hr, hclip⟩ := List.mem_filterMap.mp hq
  obtain ⟨rfl, -, -⟩ := mem_clip hclip
  exact ⟨max_rec' P (hrs r hr).lo hlo, min_rec' P (hrs r hr).hi hhi⟩

theorem span_endsIn (hrs : ∀ r ∈ rs, r.EndsIn P) (hlo : P lo) (hhi : P hi) :
    (span lo hi rs).EndsIn P := by
  cases rs with
  | nil => exact ⟨hlo, hhi⟩
  | cons r rs =>
    have hlast : rs.getLastD r ∈ r :: rs := List.getLastD_mem_cons
    exact ⟨min_rec' P hlo (hrs r List.mem_cons_self).lo, max_rec' P hhi (hrs _ hlast).hi⟩

theorem insert_endsIn (hrs : ∀ r ∈ rs, r.EndsIn P) (hlo : P lo) (hhi : P hi) :
    ∀ r ∈ insert t lo hi rs, r.EndsIn P := by
  have hrest : ∀ r ∈ notBelow t lo rs, r.EndsIn P :=
    fun r hr => hrs r ((List.dropWhile_sublist _).subset hr)
  intro q hq
  simp only [insert, List.mem_append, List.mem_cons] at hq
  obtain hq | rfl | hq := hq
  · exact hrs q ((List.takeWhile_sublist _).subset hq)
  · exact span_endsIn (fun r hr => hrest r ((List.takeWhile_sublist _).subset hr)) hlo hhi
  · exact hrest q ((List.dropWhile_sublist _).subset hq)

end Runs

namespace Points
variable {vs : List Int} {lo hi : Int}

theorem insert_stores (h : t.Follows step P) (hvs : ∀ v ∈ vs, P v) (hlo : P lo) (hhi : P hi) :
    ∀ v ∈ insert t lo hi vs, P v := by
  intro v hv
  simp only [insert, List.mem_append] at hv
  obtain (hv | hv) | hv := hv
  · exact hvs v ((List.takeWhile_sublist _).subset hv)
  · exact h.walk lo hi _ hlo hhi le_rfl v hv
  · exact hvs v ((List.dropWhile_sublist _).subset ((List.dropWhile_sublist _).subset hv))

end Points

namespace Domain
variable {d e : Domain t} {lo hi v offset : Int} {frame : Interval}

/-- All values that are stored, as values or as ends of intervals, have a property. -/
def Stores (P : Int → Prop) : Domain t → Prop
  | .intervals rs => ∀ r ∈ rs, r.EndsIn P
  | .sparse vs => ∀ v ∈ vs, P v

/-- What is stored, for another value type. -/
def retyped (t' : ValueType) : Domain t → Domain t'
  | .intervals rs => .intervals rs
  | .sparse vs => .sparse vs

theorem retyped_self (d : Domain t) : d.retyped t = d := by
  cases d <;> rfl

theorem retyped_retyped (d : Domain t) : (d.retyped t').retyped t₀ = d.retyped t₀ := by
  cases d <;> rfl

/-! ### Operations that hand their steps over -/

section
variable (step)

def ofIntervalsBy (t : ValueType) (intervals : List Interval) : Option (Domain t) :=
  (Runs.ofIntervalsBy step intervals).map .intervals

def makeBy (t : ValueType) : DomainDescription → Option (Except Fault (Domain t))
  | .ranges ends =>
    match DomainDescription.intervals ends with
    | .ok rs => (ofIntervalsBy step t rs).map .ok
    | .error cause => some (.error cause)
  | .rangeSparse lo hi => (Points.insertCheckedBy step lo hi []).map (Except.map .sparse)
  | description => some description.domain

def remadeBy : Domain t → Option (Domain t)
  | .intervals rs => ofIntervalsBy step t rs
  | .sparse vs => some (ofValues vs)

def insertRangeBy (d : Domain t) (lo hi : Int) : Option (Domain t) :=
  match d with
  | .intervals rs => (Runs.insertBy step lo hi rs).map .intervals
  | .sparse vs => (Points.insertBy step lo hi vs).map .sparse

def insertRangeCheckedBy (d : Domain t) (lo hi : Int) : Option (Except Fault (Domain t)) :=
  match d with
  | .intervals rs => (Runs.insertCheckedBy step lo hi rs).map (Except.map .intervals)
  | .sparse vs => (Points.insertCheckedBy step lo hi vs).map (Except.map .sparse)

def eraseRangeBy (d : Domain t) (lo hi : Int) : Option (Domain t) :=
  if hi < lo then some d
  else
    match d with
    | .intervals rs => (Runs.eraseBy step lo hi rs).map .intervals
    | .sparse vs => some (.sparse (Points.erase lo hi vs))

def unionBy (d e : Domain t) : Option (Domain t) :=
  e.operandRanges.foldlM (fun d r => insertRangeBy step d r.lo r.hi) d

def diffBy (d e : Domain t) : Option (Domain t) :=
  e.operandRanges.foldlM (fun d r => eraseRangeBy step d r.lo r.hi) d

def interBy (d e : Domain t) : Option (Domain t) :=
  if d.isSparse && !e.isSparse then some (ofValues (d.values.filter e.contains))
  else
    e.operandRanges.foldlM
      (fun result r =>
        (d.restrict r.lo r.hi).operandRanges.foldlM
          (fun result piece => insertRangeBy step result piece.lo piece.hi) result)
      d.cleared

def movedBy (d : Domain t) (offset : Int) : Option (Except Fault (Domain t)) :=
  match d with
  | .intervals rs => do
    match ← Runs.shiftBy step offset rs with
    | .ok rs => (ofIntervalsBy step t rs).map .ok
    | .error cause => return .error cause
  | .sparse vs => (Points.shiftBy step offset vs).map fun vs => .ok (ofValues vs)

def shiftBy (d : Domain t) (offset : Int) : Option (Except Fault (Domain t)) :=
  if (Interval.whole t).contains offset then
    if offset = 0 then some (.ok d)
    else (movedBy step d offset).map (Except.map fun e => e.restrict t.minValue t.maxValue)
  else some (.error (.shiftOutside offset))

def complementUpToBy (d : Domain t) (limit : Nat) (frame : Interval) :
    Option (Except Fault (Domain t)) :=
  match d with
  | .intervals rs => (Runs.gapsBy step frame.hi frame.lo rs).map fun gaps => .ok (.intervals gaps)
  | .sparse vs => do
    if (← ValueType.countBy step frame.lo frame.hi) ≤ limit then
      (Points.complementBy step frame vs).map fun vs => .ok (.sparse vs)
    else return .error (.sparseComplement frame.lo frame.hi limit)

def isConsistentBy : Domain t → Option Bool
  | .intervals rs => Runs.isConsistentBy step rs
  | .sparse vs => some (Points.isConsistent vs)

def sizeBy : Domain t → Option Nat
  | .intervals rs => Runs.sizeBy step rs
  | .sparse vs => some vs.length

def coversRangeBy (d : Domain t) (lo hi : Int) : Option Bool :=
  if lo ≤ hi then
    match d with
    | .intervals rs => some (Runs.coversRange lo hi rs)
    | .sparse vs => Points.coversRangeBy step lo hi vs
  else some false

def includesBy (d e : Domain t) : Option Bool :=
  e.operandRanges.allM fun r => coversRangeBy step d r.lo r.hi

def sameValuesBy (d e : Domain t) : Option Bool := do
  let size ← sizeBy step d
  let otherSize ← sizeBy step e
  let includes ← includesBy step d e
  let included ← includesBy step e d
  return decide (size = otherSize) && includes && included

def next?By (d : Domain t) (v : Int) : Option (Option Int) :=
  match d with
  | .intervals rs => Runs.next?By step v rs
  | .sparse vs => some (Points.next? v vs)

def prev?By (d : Domain t) (v : Int) : Option (Option Int) :=
  match d with
  | .intervals rs => Runs.prev?By step v rs
  | .sparse vs => some (Points.prev? v vs)

def get?By (d : Domain t) (index : Nat) : Option (Option Int) :=
  match d with
  | .intervals rs => Runs.get?By step t rs index
  | .sparse vs => some vs[index]?

def drawBy (d : Domain t) (seed : Nat) : Option (Option Int) := do
  let size ← sizeBy step d
  get?By step d (seed % size)

def valuesBy : Domain t → Option (List Int)
  | .intervals rs => Runs.valuesBy step rs
  | .sparse vs => some vs

def takeValuesBy (limit : Nat) : Domain t → Option (List Int)
  | .intervals rs => Runs.takeValuesBy step limit rs
  | .sparse vs => some (vs.take limit)

def runsBy : Domain t → Option (List Interval)
  | .intervals rs => some rs
  | .sparse vs => Points.runsBy step vs

/-- The order is found by a walk through the values of both domains, as far as they are alike. Here
the steps of the whole walks are handed over. -/
def lexCompareBy (d e : Domain t) : Option Ordering := do
  let _ ← valuesBy step d
  let _ ← valuesBy step e
  let runs ← runsBy step d
  let others ← runsBy step e
  return Runs.lexCompare runs others

end

theorem Stores.imp {Q : Int → Prop} (hd : d.Stores P) (himp : ∀ v, P v → Q v) : d.Stores Q := by
  cases d with
  | intervals rs => exact fun r hr => (hd r hr).imp himp
  | sparse vs => exact fun v hv => himp v (hd v hv)

theorem Stores.operandRanges (hd : d.Stores P) :
    ∀ r ∈ d.operandRanges, r.EndsIn P := by
  cases d with
  | intervals rs => exact hd
  | sparse vs =>
    intro r hr
    obtain ⟨v, hv, rfl⟩ := List.mem_map.mp hr
    exact ⟨hd v hv, hd v hv⟩

theorem Stores.restrict (hd : d.Stores P) (hlo : P lo) (hhi : P hi) :
    (d.restrict lo hi).Stores P := by
  simp only [Domain.restrict]
  split
  · cases d <;> exact fun _ hr => absurd hr List.not_mem_nil
  · cases d with
    | intervals rs => exact Runs.restrict_endsIn hd hlo hhi
    | sparse vs => exact fun v hv => hd v ((Points.restrict_sublist _ _ _).subset hv)

theorem Stores.insertRange (h : t.Follows step P) (hd : d.Stores P) (hlo : P lo) (hhi : P hi) :
    (d.insertRange lo hi).Stores P := by
  cases d with
  | intervals rs => exact Runs.insert_endsIn hd hlo hhi
  | sparse vs => exact Points.insert_stores h hd hlo hhi

theorem Stores.ofValues {vs : List Int} (hvs : ∀ v ∈ vs, P v) :
    (Domain.ofValues vs : Domain t).Stores P :=
  fun v hv => hvs v (Points.mem_ofList.mp hv)

/-- What domains have in common is made of parts of the first one. -/
theorem Stores.inter (h : t.Follows step P) (hd : d.Stores P) (he : e.Stores P) :
    (d.inter e).Stores P := by
  rw [Domain.inter]
  split
  · next hsparse =>
    cases d with
    | intervals rs => cases hsparse
    | sparse vs => exact Stores.ofValues fun v hv => hd v (List.mem_of_mem_filter hv)
  · have hcleared : d.cleared.Stores P := by
      cases d <;> exact fun _ hr => absurd hr List.not_mem_nil
    refine List.foldlRecOn _ _ hcleared fun result hresult r hr => ?_
    have hparts : (d.restrict r.lo r.hi).Stores P :=
      hd.restrict (he.operandRanges r hr).lo (he.operandRanges r hr).hi
    refine List.foldlRecOn _ _ hresult fun result hresult piece hpiece => ?_
    have hends := hparts.operandRanges piece hpiece
    exact hresult.insertRange h hends.lo hends.hi

theorem Stores.retyped (hd : d.Stores P) : (d.retyped t').Stores P := by
  cases d <;> exact hd

theorem operandRanges_retyped (d : Domain t) :
    (d.retyped t').operandRanges = d.operandRanges := by
  cases d <;> rfl

theorem isSparse_retyped (d : Domain t) : (d.retyped t').isSparse = d.isSparse := by
  cases d <;> rfl

theorem cleared_retyped (d : Domain t) : (d.retyped t').cleared = d.cleared.retyped t' := by
  cases d <;> rfl

theorem restrict_retyped (d : Domain t) (lo hi : Int) :
    (d.retyped t').restrict lo hi = (d.restrict lo hi).retyped t' := by
  simp only [restrict]
  split <;> cases d <;> rfl

/-! ### What they come to -/

theorem ofIntervalsBy_eq (t₀ : ValueType) {rs : List Interval}
    (hrs : ∀ r ∈ rs, step (r.lo - 1) = some (t.pred r.lo) ∧ step (r.hi + 1) = some (t.succ r.hi)) :
    ofIntervalsBy step t₀ rs = some ((ofIntervals rs : Domain t).retyped t₀) := by
  rw [ofIntervalsBy, Runs.ofIntervalsBy_eq hrs]
  rfl

section
variable (h : t.Follows step P)
include h

theorem insertRangeBy_eq (hlo : P lo) (hhi : P hi) (d : Domain t) :
    insertRangeBy step (d.retyped t₀) lo hi = some ((d.insertRange lo hi).retyped t₀) := by
  cases d with
  | intervals rs =>
    rw [retyped, insertRangeBy, Runs.insertBy_eq (h.pred hlo) (h.succ hhi)]
    rfl
  | sparse vs =>
    rw [retyped, insertRangeBy, Points.insertBy_eq h hlo hhi]
    rfl

theorem insertRangeCheckedBy_eq (hlo : P lo) (hhi : P hi) (d : Domain t) :
    insertRangeCheckedBy step (d.retyped t₀) lo hi =
      some ((d.insertRangeChecked lo hi).map (·.retyped t₀)) := by
  cases d with
  | intervals rs =>
    simp only [retyped, insertRangeCheckedBy, insertRangeChecked,
      Runs.insertCheckedBy_eq (h.pred hlo) (h.succ hhi)]
    cases Runs.insertChecked t lo hi rs <;> rfl
  | sparse vs =>
    simp only [retyped, insertRangeCheckedBy, insertRangeChecked,
      Points.insertCheckedBy_eq h hlo hhi]
    cases Points.insertChecked t lo hi vs <;> rfl

theorem eraseRangeBy_eq (hlo : P lo) (hhi : P hi) (d : Domain t) :
    eraseRangeBy step (d.retyped t₀) lo hi = some ((d.eraseRange lo hi).retyped t₀) := by
  simp only [eraseRangeBy, eraseRange]
  split
  · rfl
  · cases d with
    | intervals rs =>
      simp only [retyped, Runs.eraseBy_eq h hlo hhi]
      rfl
    | sparse vs => rfl

theorem unionBy_eq (he : e.Stores P) (d : Domain t) :
    unionBy step (d.retyped t₀) (e.retyped t₀) = some ((d.union e).retyped t₀) := by
  rw [unionBy, operandRanges_retyped]
  exact foldlM_eq (retyped t₀) (fun d r hr =>
    insertRangeBy_eq h (he.operandRanges r hr).lo (he.operandRanges r hr).hi d) d

theorem diffBy_eq (he : e.Stores P) (d : Domain t) :
    diffBy step (d.retyped t₀) (e.retyped t₀) = some ((d.diff e).retyped t₀) := by
  rw [diffBy, operandRanges_retyped]
  exact foldlM_eq (retyped t₀) (fun d r hr =>
    eraseRangeBy_eq h (he.operandRanges r hr).lo (he.operandRanges r hr).hi d) d

theorem interBy_eq (hd : d.Stores P) (he : e.Stores P) :
    interBy step (d.retyped t₀) (e.retyped t₀) = some ((d.inter e).retyped t₀) := by
  simp only [interBy, inter, isSparse_retyped]
  split
  · next hsparse => cases d <;> cases e <;> first | rfl | cases hsparse
  · rw [operandRanges_retyped, cleared_retyped]
    refine foldlM_eq (retyped t₀) (fun result r hr => ?_) d.cleared
    have hparts : (d.restrict r.lo r.hi).Stores P :=
      hd.restrict (he.operandRanges r hr).lo (he.operandRanges r hr).hi
    rw [restrict_retyped, operandRanges_retyped]
    refine foldlM_eq (retyped t₀) (fun result piece hpiece => ?_) result
    have hends := hparts.operandRanges piece hpiece
    exact insertRangeBy_eq h hends.lo hends.hi result

theorem remadeBy_eq (hd : d.Stores P) :
    remadeBy step (d.retyped t₀) = some (d.remade.retyped t₀) := by
  cases d with
  | intervals rs => exact ofIntervalsBy_eq t₀ fun r hr => ⟨h.pred (hd r hr).lo, h.succ (hd r hr).hi⟩
  | sparse vs => rfl

theorem movedBy_eq (hd : d.Stores P) (hoffset : P offset) :
    movedBy step (d.retyped t₀) offset = some ((d.moved offset).map (·.retyped t₀)) := by
  cases d with
  | intervals rs =>
    simp only [retyped, movedBy, moved, Runs.shiftBy_eq h hd hoffset, Option.bind_eq_bind,
      Option.bind_some]
    cases hshift : Runs.shift t offset rs with
    | error cause => rfl
    | ok qs =>
      have hsteps : ∀ q ∈ qs,
          step (q.lo - 1) = some (t.pred q.lo) ∧ step (q.hi + 1) = some (t.succ q.hi) := by
        intro q hq
        obtain ⟨r, hr, hlo, hhi⟩ := Runs.mem_shift hshift q hq
        rw [hlo, hhi]
        exact ⟨h.take _ (.sum_pred (hd r hr).lo hoffset), h.take _ (.sum_succ (hd r hr).hi hoffset)⟩
      simp only [ofIntervalsBy_eq t₀ hsteps]
      rfl
  | sparse vs =>
    simp only [retyped, movedBy, moved, Points.shiftBy_eq h hd hoffset]
    rfl

theorem complementUpToBy_eq (hd : d.Stores P) (hframe : frame.EndsIn P) (limit : Nat) :
    complementUpToBy step (d.retyped t₀) limit frame =
      some ((d.complementUpTo limit frame).map (·.retyped t₀)) := by
  cases d with
  | intervals rs =>
    simp only [retyped, complementUpToBy, complementUpTo, Runs.gapsBy_eq h hd]
    rfl
  | sparse vs =>
    have hsize : ValueType.countBy step frame.lo frame.hi = some (frame.size t) :=
      h.count hframe.lo hframe.hi
    simp only [retyped, complementUpToBy, complementUpTo, hsize, Points.complementBy_eq h hframe,
      Option.bind_eq_bind, Option.bind_some]
    split <;> rfl

theorem isConsistentBy_eq (hd : d.Stores P) :
    isConsistentBy step (d.retyped t₀) = some d.isConsistent := by
  cases d with
  | intervals rs => exact Runs.isConsistentBy_eq h hd
  | sparse vs => rfl

theorem sizeBy_eq (hd : d.Stores P) : sizeBy step (d.retyped t₀) = some d.size := by
  cases d with
  | intervals rs => exact Runs.sizeBy_eq h hd
  | sparse vs => rfl

theorem coversRangeBy_eq (hlo : P lo) (hhi : P hi) (d : Domain t) :
    coversRangeBy step (d.retyped t₀) lo hi = some (d.coversRange lo hi) := by
  simp only [coversRangeBy, coversRange]
  split
  · next hle =>
    rw [decide_eq_true hle, Bool.true_and]
    cases d with
    | intervals rs => rfl
    | sparse vs => exact Points.coversRangeBy_eq h hlo hhi vs
  · next hle => rw [decide_eq_false hle, Bool.false_and]

theorem includesBy_eq (he : e.Stores P) (d : Domain t) :
    includesBy step (d.retyped t₀) (e.retyped t₀) = some (d.includes e) := by
  rw [includesBy, operandRanges_retyped]
  exact allM_eq fun r hr =>
    coversRangeBy_eq h (he.operandRanges r hr).lo (he.operandRanges r hr).hi d

theorem sameValuesBy_eq (hd : d.Stores P) (he : e.Stores P) :
    sameValuesBy step (d.retyped t₀) (e.retyped t₀) = some (d.sameValues e) := by
  simp only [sameValuesBy, sizeBy_eq h hd, sizeBy_eq h he, includesBy_eq h he, includesBy_eq h hd]
  rfl

theorem next?By_eq (hv : P v) (d : Domain t) :
    next?By step (d.retyped t₀) v = some (d.next? v) := by
  cases d with
  | intervals rs => exact Runs.next?By_eq h hv rs
  | sparse vs => rfl

theorem prev?By_eq (hv : P v) (d : Domain t) :
    prev?By step (d.retyped t₀) v = some (d.prev? v) := by
  cases d with
  | intervals rs => exact Runs.prev?By_eq h hv rs
  | sparse vs => rfl

theorem valuesBy_eq (hd : d.Stores P) : valuesBy step (d.retyped t₀) = some d.values := by
  cases d with
  | intervals rs => exact Runs.valuesBy_eq h hd
  | sparse vs => rfl

theorem takeValuesBy_eq (hd : d.Stores P) (limit : Nat) :
    takeValuesBy step limit (d.retyped t₀) = some (d.takeValues limit) := by
  cases d with
  | intervals rs => exact Runs.takeValuesBy_eq h hd limit
  | sparse vs => rfl

theorem runsBy_eq (hd : d.Stores P) : runsBy step (d.retyped t₀) = some d.runs := by
  cases d with
  | intervals rs => rfl
  | sparse vs => exact Points.runsBy_eq h hd

theorem lexCompareBy_eq (hd : d.Stores P) (he : e.Stores P) :
    lexCompareBy step (d.retyped t₀) (e.retyped t₀) = some (d.lexCompare e) := by
  simp only [lexCompareBy, valuesBy_eq h hd, valuesBy_eq h he, runsBy_eq h hd, runsBy_eq h he]
  rfl

end

section
variable (h : t₀.Simulates t step P)
include h

theorem shiftBy_eq (hd : d.Stores P) (hoffset : P offset) :
    shiftBy step (d.retyped t₀) offset = some ((d.shift offset).map (·.retyped t₀)) := by
  have hwhole : Interval.whole t₀ = Interval.whole t := by
    rw [Interval.whole, Interval.whole, h.minValue, h.maxValue]
  rw [shiftBy, shift, hwhole, movedBy_eq h.toFollows hd hoffset, h.minValue, h.maxValue]
  split
  · split
    · rfl
    · cases d.moved offset with
      | error cause => rfl
      | ok e => exact congrArg (some ∘ Except.ok) (restrict_retyped e _ _)
  · rfl

theorem get?By_eq (hd : d.Stores P) (index : Nat) :
    get?By step (d.retyped t₀) index = some (d.get? index) := by
  cases d with
  | intervals rs => exact Runs.get?By_eq h hd index
  | sparse vs => rfl

theorem drawBy_eq (hd : d.Stores P) (seed : Nat) :
    drawBy step (d.retyped t₀) seed = some (d.draw seed) := by
  simp only [drawBy, sizeBy_eq h.toFollows hd, Option.bind_eq_bind, Option.bind_some,
    get?By_eq h hd, draw]

end

end Domain
end FiniteDomains
