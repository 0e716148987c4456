import FiniteDomains.Proofs.Domain.Steps

/-! Domains over value types with one universe. As long as the values stored and asked about are in
the universe, no step of an operation leaves the word, and every operation gives the same domain or
answer, whatever a word holds. -/
namespace FiniteDomains
variable {t t' t₀ : ValueType} {step : Int → Option Int} {P : Int → Prop}

namespace Domain
variable {d e : Domain t}

/-- The operations on domains and the questions about them, with the values they are given. -/
inductive Operation where
  | make (description : DomainDescription)
  | remade
  | cleared
  | insertRange (lo hi : Int)
  | eraseRange (lo hi : Int)
  | erase (v : Int)
  | restrict (lo hi : Int)
  | union
  | diff
  | inter
  | shift (offset : Int)
  | complement (frame : Interval)
  | complementUpTo (limit : Nat) (frame : Interval)
  | isConsistent
  | isSparse
  | isEmpty
  | isSingleton
  | contains (v : Int)
  | coversRange (lo hi : Int)
  | meetsRange (lo hi : Int)
  | includes
  | meets
  | sameValues
  | lexCompare
  | size
  | commonSize
  | runCount
  | min
  | max
  | value
  | next (v : Int)
  | prev (v : Int)
  | get (index : Nat)
  | draw (seed : Nat)
  | values
  | takeValues (limit : Nat)
  | runs
  | run (index : Nat)
  | text

inductive Reply (t : ValueType) where
  | domain (d : Domain t)
  | flag (b : Bool)
  | number (n : Nat)
  | value (v : Option Int)
  | values (vs : List Int)
  | run (r : Option Interval)
  | runs (rs : List Interval)
  | order (o : Ordering)
  | text (s : String)

def Reply.retyped (t' : ValueType) : Reply t → Reply t'
  | .domain d => .domain (d.retyped t')
  | .flag b => .flag b
  | .number n => .number n
  | .value v => .value v
  | .values vs => .values vs
  | .run r => .run r
  | .runs rs => .runs rs
  | .order o => .order o
  | .text s => .text s

theorem Reply.retyped_self (r : Reply t) : r.retyped t = r := by
  cases r with
  | domain d => exact congrArg Reply.domain (Domain.retyped_self d)
  | flag | number | value | values | run | runs | order | text => rfl

theorem Reply.retyped_retyped (r : Reply t) : (r.retyped t').retyped t₀ = r.retyped t₀ := by
  cases r with
  | domain d => exact congrArg Reply.domain (Domain.retyped_retyped d)
  | flag | number | value | values | run | runs | order | text => rfl

theorem map_retyped_self (r : Except Fault (Reply t)) : r.map (·.retyped t) = r := by
  cases r with
  | error cause => rfl
  | ok r => exact congrArg Except.ok r.retyped_self

theorem map_retyped_retyped (r : Except Fault (Reply t)) :
    (r.map (·.retyped t')).map (·.retyped t₀) = r.map (·.retyped t₀) := by
  cases r with
  | error cause => rfl
  | ok r => exact congrArg Except.ok r.retyped_retyped

/-- Performs an operation on two domains; one that needs fewer leaves out the second, or both. -/
def Operation.perform (d e : Domain t) : Operation → Except Fault (Reply t)
  | .make description => description.domain.map .domain
  | .remade => .ok (.domain d.remade)
  | .cleared => .ok (.domain d.cleared)
  | .insertRange lo hi => (d.insertRangeChecked lo hi).map .domain
  | .eraseRange lo hi => .ok (.domain (d.eraseRange lo hi))
  | .erase v => .ok (.domain (d.erase v))
  | .restrict lo hi => .ok (.domain (d.restrict lo hi))
  | .union => .ok (.domain (d.union e))
  | .diff => .ok (.domain (d.diff e))
  | .inter => .ok (.domain (d.inter e))
  | .shift offset => (d.shift offset).map .domain
  | .complement frame => (d.complement frame).map .domain
  | .complementUpTo limit frame => (d.complementUpTo limit frame).map .domain
  | .isConsistent => .ok (.flag d.isConsistent)
  | .isSparse => .ok (.flag d.isSparse)
  | .isEmpty => .ok (.flag d.isEmpty)
  | .isSingleton => .ok (.flag d.isSingleton)
  | .contains v => .ok (.flag (d.contains v))
  | .coversRange lo hi => .ok (.flag (d.coversRange lo hi))
  | .meetsRange lo hi => .ok (.flag (d.meetsRange lo hi))
  | .includes => .ok (.flag (d.includes e))
  | .meets => .ok (.flag (d.meets e))
  | .sameValues => .ok (.flag (d.sameValues e))
  | .lexCompare => .ok (.order (d.lexCompare e))
  | .size => .ok (.number d.size)
  | .commonSize => .ok (.number (d.inter e).size)
  | .runCount => .ok (.number d.runCount)
  | .min => .ok (.value d.min?)
  | .max => .ok (.value d.max?)
  | .value => .ok (.value d.value?)
  | .next v => .ok (.value (d.next? v))
  | .prev v => .ok (.value (d.prev? v))
  | .get index => .ok (.value (d.get? index))
  | .draw seed => .ok (.value (d.draw seed))
  | .values => .ok (.values d.values)
  | .takeValues limit => .ok (.values (d.takeValues limit))
  | .runs => .ok (.runs d.runs)
  | .run index => .ok (.run (d.run? index))
  | .text => .ok (.text d.text)

/-- The values that an operation is given. -/
def Operation.arguments : Operation → List Int
  | .make (.range lo hi) | .make (.rangeSparse lo hi) => [lo, hi]
  | .make (.ranges ends) => ends.flatMap fun (lo, hi) => [lo, hi]
  | .make (.values vs) => vs
  | .insertRange lo hi | .eraseRange lo hi | .restrict lo hi => [lo, hi]
  | .coversRange lo hi | .meetsRange lo hi => [lo, hi]
  | .complement frame | .complementUpTo _ frame => [frame.lo, frame.hi]
  | .erase v | .shift v | .contains v | .next v | .prev v => [v]
  | _ => []

/-- Performs an operation, handing over each step. -/
def Operation.performBy (step : Int → Option Int) (d e : Domain t) :
    Operation → Option (Except Fault (Reply t))
  | .make description => (makeBy step t description).map (Except.map .domain)
  | .remade => (remadeBy step d).map fun d => .ok (.domain d)
  | .insertRange lo hi => (insertRangeCheckedBy step d lo hi).map (Except.map .domain)
  | .eraseRange lo hi => (eraseRangeBy step d lo hi).map fun d => .ok (.domain d)
  | .erase v => (eraseRangeBy step d v v).map fun d => .ok (.domain d)
  | .union => (unionBy step d e).map fun d => .ok (.domain d)
  | .diff => (diffBy step d e).map fun d => .ok (.domain d)
  | .inter => (interBy step d e).map fun d => .ok (.domain d)
  | .shift offset => (shiftBy step d offset).map (Except.map .domain)
  | .complement frame =>
    (complementUpToBy step d standardComplementLimit frame).map (Except.map .domain)
  | .complementUpTo limit frame =>
    (complementUpToBy step d limit frame).map (Except.map .domain)
  | .isConsistent => (isConsistentBy step d).map fun b => .ok (.flag b)
  | .contains v => (coversRangeBy step d v v).map fun b => .ok (.flag b)
  | .coversRange lo hi => (coversRangeBy step d lo hi).map fun b => .ok (.flag b)
  | .includes => (includesBy step d e).map fun b => .ok (.flag b)
  | .sameValues => (sameValuesBy step d e).map fun b => .ok (.flag b)
  | .lexCompare => (lexCompareBy step d e).map fun o => .ok (.order o)
  | .size => (sizeBy step d).map fun n => .ok (.number n)
  | .commonSize => do
    let common ← interBy step d e
    (sizeBy step common).map fun n => .ok (.number n)
  | .runCount => (runsBy step d).map fun rs => .ok (.number rs.length)
  | .next v => (next?By step d v).map fun v => .ok (.value v)
  | .prev v => (prev?By step d v).map fun v => .ok (.value v)
  | .get index => (get?By step d index).map fun v => .ok (.value v)
  | .draw seed => (drawBy step d seed).map fun v => .ok (.value v)
  | .values => (valuesBy step d).map fun vs => .ok (.values vs)
  | .takeValues limit => (takeValuesBy step limit d).map fun vs => .ok (.values vs)
  | .runs => (runsBy step d).map fun rs => .ok (.runs rs)
  | .run index => (runsBy step d).map fun rs => .ok (.run rs[index]?)
  | .text => (runsBy step d).map fun rs => .ok (.text (Domain.text (.intervals rs : Domain t)))
  | operation => some (operation.perform d e)

theorem intervals_endsIn {ends : List (Int × Int)} {rs : List Interval}
    (hends : ∀ pair ∈ ends, P pair.1 ∧ P pair.2) (hrs : DomainDescription.intervals ends = .ok rs) :
    ∀ r ∈ rs, r.EndsIn P := by
  induction ends generalizing rs with
  | nil =>
    cases hrs
    simp
  | cons pair ends ih =>
    obtain ⟨hpair, hrest⟩ := List.forall_mem_cons.mp hends
    simp only [DomainDescription.intervals, Interval.make] at hrs
    split at hrs
    · cases htail : DomainDescription.intervals ends with
      | error cause =>
        rw [htail] at hrs
        cases hrs
      | ok tail =>
        rw [htail] at hrs
        cases hrs
        exact List.forall_mem_cons.mpr ⟨⟨hpair.1, hpair.2⟩, ih hrest htail⟩
    · cases hrs

theorem map_domain_retyped (r : Except Fault (Domain t)) :
    (r.map (·.retyped t')).map Reply.domain = (r.map Reply.domain).map (·.retyped t') := by
  cases r <;> rfl

theorem makeBy_eq (h : t.Follows step P) (description : DomainDescription)
    (hargs : ∀ v ∈ (Operation.make description).arguments, P v) :
    makeBy step t₀ description =
      some ((description.domain : Except Fault (Domain t)).map (·.retyped t₀)) := by
  cases description with
  | empty | values vs => rfl
  | range lo hi =>
    simp only [makeBy, DomainDescription.domain, ofRange]
    cases Interval.make lo hi <;> rfl
  | ranges ends =>
    have hends : ∀ pair ∈ ends, P pair.1 ∧ P pair.2 := by
      intro pair hpair
      exact ⟨hargs _ (List.mem_flatMap.mpr ⟨pair, hpair, by simp⟩),
        hargs _ (List.mem_flatMap.mpr ⟨pair, hpair, by simp⟩)⟩
    simp only [makeBy, DomainDescription.domain, bind, Except.bind]
    cases hrs : DomainDescription.intervals ends with
    | error cause => rfl
    | ok rs =>
      have hendsIn := intervals_endsIn hends hrs
      simp only [ofIntervalsBy_eq (t := t) t₀ fun r hr =>
        ⟨h.pred (hendsIn r hr).lo, h.succ (hendsIn r hr).hi⟩]
      rfl
  | rangeSparse lo hi =>
    simp only [Operation.arguments, List.forall_mem_cons] at hargs
    simp only [makeBy, DomainDescription.domain, ofRangeSparse,
      Points.insertCheckedBy_eq h hargs.1 hargs.2.1]
    cases Points.insertChecked t lo hi [] <;> rfl

/-- Every operation that hands its steps over comes to that of the value type. -/
theorem performBy_eq (h : t₀.Simulates t step P) (hd : d.Stores P) (he : e.Stores P)
    (operation : Operation) (hargs : ∀ v ∈ operation.arguments, P v) :
    operation.performBy step (d.retyped t₀) (e.retyped t₀) =
      some ((operation.perform d e).map (·.retyped t₀)) := by
  have hsteps : t.Follows step P := h.toFollows
  have hone {v : Int} (hall : ∀ w ∈ [v], P w) : P v := hall v List.mem_cons_self
  have htwo {lo hi : Int} (hall : ∀ w ∈ [lo, hi], P w) : P lo ∧ P hi :=
    ⟨hall lo List.mem_cons_self, hall hi (List.mem_cons_of_mem _ List.mem_cons_self)⟩
  cases operation with
  | make description =>
    simp only [Operation.performBy, makeBy_eq hsteps description hargs, Option.map_some,
      map_domain_retyped]
    rfl
  | remade => rw [Operation.performBy, remadeBy_eq hsteps hd]; rfl
  | insertRange lo hi =>
    obtain ⟨hlo, hhi⟩ := htwo hargs
    simp only [Operation.performBy, insertRangeCheckedBy_eq hsteps hlo hhi, Option.map_some,
      map_domain_retyped]
    rfl
  | eraseRange lo hi =>
    obtain ⟨hlo, hhi⟩ := htwo hargs
    rw [Operation.performBy, eraseRangeBy_eq hsteps hlo hhi]; rfl
  | erase v => rw [Operation.performBy, eraseRangeBy_eq hsteps (hone hargs) (hone hargs)]; rfl
  | restrict lo hi =>
    simp only [Operation.performBy, Operation.perform, restrict_retyped]
    rfl
  | union => rw [Operation.performBy, unionBy_eq hsteps he]; rfl
  | diff => rw [Operation.performBy, diffBy_eq hsteps he]; rfl
  | inter => rw [Operation.performBy, interBy_eq hsteps hd he]; rfl
  | shift offset =>
    simp only [Operation.performBy, shiftBy_eq h hd (hone hargs), Option.map_some,
      map_domain_retyped]
    rfl
  | complement frame =>
    obtain ⟨hlo, hhi⟩ := htwo hargs
    simp only [Operation.performBy, complementUpToBy_eq hsteps hd ⟨hlo, hhi⟩, Option.map_some,
      map_domain_retyped]
    rfl
  | complementUpTo limit frame =>
    obtain ⟨hlo, hhi⟩ := htwo hargs
    simp only [Operation.performBy, complementUpToBy_eq hsteps hd ⟨hlo, hhi⟩, Option.map_some,
      map_domain_retyped]
    rfl
  | isConsistent => rw [Operation.performBy, isConsistentBy_eq hsteps hd]; rfl
  | contains v =>
    rw [Operation.performBy, coversRangeBy_eq hsteps (hone hargs) (hone hargs)]; rfl
  | coversRange lo hi =>
    obtain ⟨hlo, hhi⟩ := htwo hargs
    rw [Operation.performBy, coversRangeBy_eq hsteps hlo hhi]; rfl
  | includes => rw [Operation.performBy, includesBy_eq hsteps he]; rfl
  | sameValues => rw [Operation.performBy, sameValuesBy_eq hsteps hd he]; rfl
  | lexCompare => rw [Operation.performBy, lexCompareBy_eq hsteps hd he]; rfl
  | size => rw [Operation.performBy, sizeBy_eq hsteps hd]; rfl
  | commonSize =>
    simp only [Operation.performBy, interBy_eq hsteps hd he, Option.bind_eq_bind,
      Option.bind_some, sizeBy_eq hsteps (hd.inter hsteps he)]
    rfl
  | runCount => rw [Operation.performBy, runsBy_eq hsteps hd]; rfl
  | next v => rw [Operation.performBy, next?By_eq hsteps (hone hargs)]; rfl
  | prev v => rw [Operation.performBy, prev?By_eq hsteps (hone hargs)]; rfl
  | get index => rw [Operation.performBy, get?By_eq h hd]; rfl
  | draw seed => rw [Operation.performBy, drawBy_eq h hd]; rfl
  | values => rw [Operation.performBy, valuesBy_eq hsteps hd]; rfl
  | takeValues limit => rw [Operation.performBy, takeValuesBy_eq hsteps hd]; rfl
  | runs => rw [Operation.performBy, runsBy_eq hsteps hd]; rfl
  | run index => rw [Operation.performBy, runsBy_eq hsteps hd]; rfl
  | text => rw [Operation.performBy, runsBy_eq hsteps hd]; rfl
  | meets => cases d <;> cases e <;> rfl
  | cleared | isSparse | isEmpty | isSingleton | meetsRange | min | max | value => cases d <;> rfl

end Domain

namespace ValueType

/-- The operations on values with a property take all their unchecked steps by a function, and give
what they give with the steps of the value type. -/
structure Takes (t : ValueType) (step : Int → Option Int) (P : Int → Prop) : Prop where
  domains : ∀ (d e : Domain t) (operation : Domain.Operation), d.Stores P → e.Stores P →
    (∀ v ∈ operation.arguments, P v) →
    operation.performBy step d e = some (operation.perform d e)
  intervals : ∀ (x y : Interval) (operation : Interval.Operation), x.EndsIn P → y.EndsIn P →
    operation.performBy t step x y = some (operation.perform t x y)

/-- All operations on values of the universe give the same over two value types. -/
structure Agrees (t t' : ValueType) : Prop where
  domains : ∀ (d e : Domain t) (operation : Domain.Operation), d.Stores t.Admissible →
    e.Stores t.Admissible → (∀ v ∈ operation.arguments, t.Admissible v) →
    operation.perform (d.retyped t') (e.retyped t') =
      (operation.perform d e).map (·.retyped t')
  intervals : ∀ (x y : Interval) (operation : Interval.Operation), x.EndsIn t.Admissible →
    y.EndsIn t.Admissible → operation.perform t' x y = operation.perform t x y

theorem Simulates.takes (h : t.Simulates t step P) : t.Takes step P where
  domains := by
    intro d e operation hd he hargs
    have hperform := Domain.performBy_eq h hd he operation hargs
    rwa [Domain.retyped_self, Domain.retyped_self, Domain.map_retyped_self] at hperform
  intervals := fun _ _ operation hx hy => Interval.performBy_eq h hx hy operation

/-- Two value types with one universe agree, as the steps that one has room for are all steps of
either. -/
theorem agrees_of_universe [t.Lawful] [t'.Lawful] (hmin : t.minValue = t'.minValue)
    (hmax : t.maxValue = t'.maxValue) : t.Agrees t' := by
  have hshared := guarded_simulates_shared hmin hmax
  have hadmissible (v : Int) (hv : t.Admissible v) : t'.Admissible v := by
    simpa only [Admissible, hmin, hmax] using hv
  constructor
  · intro d e operation hd he hargs
    have hstores {d : Domain t} (hd : d.Stores t.Admissible) :
        (d.retyped t').Stores t'.Admissible :=
      (hd.imp hadmissible).retyped
    have hleft := t.guarded_simulates.takes.domains d e operation hd he hargs
    have hright := Domain.performBy_eq hshared (hstores hd) (hstores he) operation
      fun v hv => hadmissible v (hargs v hv)
    simp only [Domain.retyped_retyped, Domain.retyped_self, hleft, Option.some_inj] at hright
    rw [hright, Domain.map_retyped_retyped, Domain.map_retyped_self]
  · intro x y operation hx hy
    have hleft := t.guarded_simulates.takes.intervals x y operation hx hy
    have hright := Interval.performBy_eq hshared (hx.imp hadmissible) (hy.imp hadmissible) operation
    exact Option.some_inj.mp (hright.symm.trans hleft)

/-- As long as all values are in the universe, the operations over 32 bits give what they give for
integers of any size, whatever is left of results that overflow. None does overflow: the operations
come to the same if steps with results that do not fit are refused. What hands its steps over is the
operation itself; with the steps of any value type it gives what that operation gives. -/
theorem widths_agree (overflow : Int → Int) :
    (overflowing32 overflow).Agrees integer ∧
      (overflowing32 overflow).Takes (overflowing32 overflow).guarded
        (overflowing32 overflow).Admissible ∧
      ∀ t : ValueType, t.Takes t.wrapping fun _ => True :=
  ⟨agrees_of_universe rfl rfl, (guarded_simulates _).takes, fun t => t.wrapping_simulates.takes⟩

/-- Sums at the ends of the universe, and products far beyond it, with overflow to zero. Outside of
the universe a step may be refused. -/
theorem widths_agree_extreme :
    let t := overflowing32 fun _ => 0
    let d : Domain t := .intervals [⟨-536870910, -536870910⟩, ⟨536870908, 536870909⟩]
    let e : Domain t := .sparse [-536870910, 536870909]
    let x : Interval := ⟨-536870910, 536870909⟩
    d.Stores t.Admissible ∧ e.Stores t.Admissible ∧ x.EndsIn t.Admissible ∧
      (Domain.Operation.shift 536870909).perform d e = .ok (.domain (.intervals [⟨-1, -1⟩])) ∧
      (Domain.Operation.shift 536870909).performBy t.guarded d e =
        some (.ok (.domain (.intervals [⟨-1, -1⟩]))) ∧
      (Domain.Operation.shift 536870909).perform (d.retyped integer) (e.retyped integer) =
        .ok (.domain (.intervals [⟨-1, -1⟩])) ∧
      t.mul? x.lo x.hi = none ∧
      Interval.Operation.mul.perform t x x = .ok (.ok x) ∧
      Interval.Operation.mul.perform integer x x = .ok (.ok x) ∧
      (Domain.Operation.insertRange 0 2147483647).performBy t.guarded d e = none := by
  intro t d e x
  have hx : x.EndsIn t.Admissible := ⟨by decide, by decide⟩
  have hd : d.Stores t.Admissible := by
    simp only [d, Domain.Stores, List.forall_mem_cons]
    exact ⟨⟨by decide, by decide⟩, ⟨by decide, by decide⟩, by simp⟩
  have he : e.Stores t.Admissible := by
    simp only [e, Domain.Stores]
    decide
  obtain ⟨⟨hdomains, hintervals⟩, ⟨htakes, -⟩, -⟩ := widths_agree fun _ => 0
  have hshift : (Domain.Operation.shift 536870909).perform d e =
      .ok (.domain (.intervals [⟨-1, -1⟩])) := rfl
  have hmul : Interval.Operation.mul.perform t x x = .ok (.ok x) := rfl
  refine ⟨hd, he, hx, hshift, ?_, ?_, by decide, hmul, (hintervals x x .mul hx hx).trans hmul, rfl⟩
  · rw [htakes d e (.shift 536870909) hd he (by decide), hshift]
  · rw [hdomains d e (.shift 536870909) hd he (by decide), hshift]
    rfl

end ValueType
end FiniteDomains
