import FiniteDomains.Proofs.Domain.Matching

/-! Changes compose. What a change sets off can be told from the values before and after. Along
domains that only become smaller a moved end does not come back and a domain of one value keeps it,
so what the whole change sets off is what some step of it does. -/
namespace FiniteDomains
variable {t : ValueType} {d e f : Domain t}

namespace Domain

/-- A domain goes over to another that has some of its values, and no others. -/
structure NarrowsTo (d e : Domain t) : Prop where
  consistent : e.Consistent
  nonempty : e.isEmpty = false
  subset : ∀ v ∈ e, v ∈ d

instance (d e : Domain t) : Decidable (d.NarrowsTo e) :=
  decidable_of_iff (e.Consistent ∧ e.isEmpty = false ∧ ∀ v ∈ e.toFinset, v ∈ d) <| by
    simp only [mem_toFinset]
    exact ⟨fun ⟨h, hne, hsub⟩ => ⟨h, hne, hsub⟩, fun h => ⟨h.consistent, h.nonempty, h.subset⟩⟩

theorem NarrowsTo.trans (hde : d.NarrowsTo e) (hef : e.NarrowsTo f) : d.NarrowsTo f :=
  ⟨hef.consistent, hef.nonempty, fun v hv => hde.subset v (hef.subset v hv)⟩

theorem NarrowsTo.keeps (h : d.NarrowsTo e) : e.NarrowsTo e :=
  ⟨h.consistent, h.nonempty, fun _ hv => hv⟩

theorem NarrowsTo.min?_eq_iff (hde : d.NarrowsTo e) (hef : e.NarrowsTo f) (h : d.Consistent) :
    f.min? = d.min? ↔ e.min? = d.min? ∧ f.min? = e.min? := by
  refine ⟨fun hends => ?_, fun ⟨hfirst, hsecond⟩ => hsecond.trans hfirst⟩
  obtain ⟨m, _, hm, -⟩ := exists_ends hef.nonempty
  have hlast := min?_isLeast hef.consistent hm
  have hfirst := min?_isLeast h (hends.symm.trans hm)
  have hmid : e.min? = some m := (min?_eq_some_iff hde.consistent).mpr
    ⟨hef.subset m hlast.1, fun v hv => hfirst.2 (hde.subset v hv)⟩
  exact ⟨hmid.trans (hm.symm.trans hends), hm.trans hmid.symm⟩

theorem NarrowsTo.max?_eq_iff (hde : d.NarrowsTo e) (hef : e.NarrowsTo f) (h : d.Consistent) :
    f.max? = d.max? ↔ e.max? = d.max? ∧ f.max? = e.max? := by
  refine ⟨fun hends => ?_, fun ⟨hfirst, hsecond⟩ => hsecond.trans hfirst⟩
  obtain ⟨_, m, -, hm⟩ := exists_ends hef.nonempty
  have hlast := max?_isGreatest hef.consistent hm
  have hfirst := max?_isGreatest h (hends.symm.trans hm)
  have hmid : e.max? = some m := (max?_eq_some_iff hde.consistent).mpr
    ⟨hef.subset m hlast.1, fun v hv => hfirst.2 (hde.subset v hv)⟩
  exact ⟨hmid.trans (hm.symm.trans hends), hm.trans hmid.symm⟩

theorem NarrowsTo.mem_of_isSingleton (hde : d.NarrowsTo e) (h : d.Consistent)
    (hone : d.isSingleton = true) : ∀ v ∈ d, v ∈ e := by
  obtain ⟨w, hw⟩ := (isSingleton_iff h).mp hone
  have hall (v : Int) (hv : v ∈ d) : v = w := by
    rwa [← mem_toFinset, hw, Finset.mem_singleton] at hv
  obtain ⟨m, -, hm, -⟩ := exists_ends hde.nonempty
  have hmem : m ∈ e := (min?_isLeast hde.consistent hm).1
  intro v hv
  rwa [hall v hv, ← hall m (hde.subset m hmem)]

theorem NarrowsTo.isSingleton (hde : d.NarrowsTo e) (h : d.Consistent)
    (hone : d.isSingleton = true) : e.isSingleton = true := by
  have hback := hde.mem_of_isSingleton h hone
  rwa [isSingleton_congr hde.consistent h fun v => ⟨hde.subset v, hback v⟩]

theorem NarrowsTo.size_eq_iff [t.Lawful] (hde : d.NarrowsTo e) (h : d.Consistent)
    (hu : d.InUniverse) : e.size = d.size ↔ ∀ v ∈ d, v ∈ e := by
  refine ⟨hu.mem_of_size hde.consistent h hde.subset, fun hback => ?_⟩
  have hsame : d.Matches e :=
    ⟨hu.valid h, (hu.valid h).of_subset hde.consistent hde.subset, hu,
      fun v => ⟨hback v, hde.subset v⟩⟩
  exact hsame.size_eq.symm

end Domain

/-- What has to happen to a domain for a constraint to be woken. -/
def Trigger.SetOff (d e : Domain t) : Trigger → Prop
  | .ground => e.isSingleton = true ∧ d.isSingleton = false
  | .bound => e.min? ≠ d.min? ∨ e.max? ≠ d.max?
  | .any => ∃ v ∈ d, v ∉ e

namespace Trigger
open Domain
variable {trigger : Trigger}

theorem setOff_trans (h : d.Consistent) (hde : d.NarrowsTo e) (hef : e.NarrowsTo f) :
    trigger.SetOff d f ↔ trigger.SetOff d e ∨ trigger.SetOff e f := by
  cases trigger with
  | ground =>
    -- one value stays one value, so it comes to that in just one of the steps
    have hfirst := hde.isSingleton h
    have hsecond := hef.isSingleton hde.consistent
    simp only [SetOff, ← Bool.not_eq_true]
    tauto
  | bound =>
    simp only [SetOff, ne_eq, hde.min?_eq_iff hef h, hde.max?_eq_iff hef h]
    tauto
  | any =>
    simp only [SetOff]
    constructor
    · rintro ⟨v, hv, hlost⟩
      by_cases hve : v ∈ e
      · exact .inr ⟨v, hve, hlost⟩
      · exact .inl ⟨v, hv, hve⟩
    · rintro (⟨v, hv, hlost⟩ | ⟨v, hv, hlost⟩)
      · exact ⟨v, hv, fun hvf => hlost (hef.subset v hvf)⟩
      · exact ⟨v, hde.subset v hv, hlost⟩

theorem not_setOff_of_kept (h : d.Consistent) (hde : d.NarrowsTo e) (hback : ∀ v ∈ d, v ∈ e) :
    ¬trigger.SetOff d e := by
  have hmem (v : Int) : v ∈ e ↔ v ∈ d := ⟨hde.subset v, hback v⟩
  cases trigger with
  | ground => simp [SetOff, isSingleton_congr hde.consistent h hmem]
  | bound => simp [SetOff, min?_congr hde.consistent h hmem, max?_congr hde.consistent h hmem]
  | any => simpa [SetOff] using hback

theorem setOff_of_isSingleton (h : d.Consistent) (hde : d.NarrowsTo e) {v : Int} (hv : v ∈ d)
    (hlost : v ∉ e) (hone : e.isSingleton = true) : trigger.SetOff d e := by
  have hmore : d.isSingleton = false := by
    rw [← Bool.not_eq_true]
    exact fun hsingle => hlost (hde.mem_of_isSingleton h hsingle v hv)
  cases trigger with
  | ground => exact ⟨hone, hmore⟩
  | bound =>
    by_contra hkept
    simp only [SetOff, not_or, not_not] at hkept
    have hsame : e.isSingleton = d.isSingleton := by
      rw [isSingleton, isSingleton, hkept.1, hkept.2]
    rw [hsame, hmore] at hone
    cases hone
  | any => exact ⟨v, hv, hlost⟩

end Trigger

namespace Change
open Domain
variable [t.Lawful] {trigger : Trigger}

/-- A change is classified by sizes and ends, and it sets off what has happened to the values. -/
theorem mem_triggers_between (h : d.Consistent) (hu : d.InUniverse) (hde : d.NarrowsTo e) :
    trigger ∈ (between d e).triggers ↔ trigger.SetOff d e := by
  have hsize := hde.size_eq_iff h hu
  rw [between]
  split
  · next hkept => simpa [triggers] using Trigger.not_setOff_of_kept h hde (hsize.mp hkept)
  · next hless =>
    obtain ⟨v, hv, hlost⟩ : ∃ v ∈ d, v ∉ e := by simpa using mt hsize.mpr hless
    split
    · next hone =>
      refine iff_of_true ?_ (Trigger.setOff_of_isSingleton h hde hv hlost hone)
      cases trigger <;> decide
    · next hmany =>
      have hany : Trigger.any.SetOff d e := ⟨v, hv, hlost⟩
      have hground : ¬Trigger.ground.SetOff d e := fun hset => hmany hset.1
      split
      · next hmoved =>
        have hbound : Trigger.bound.SetOff d e := hmoved
        cases trigger <;> simp [triggers, hany, hground, hbound]
      · next hkept =>
        have hbound : ¬Trigger.bound.SetOff d e := hkept
        cases trigger <;> simp [triggers, hany, hground, hbound]

theorem mem_triggers_trans (h : d.Consistent) (hu : d.InUniverse) (hde : d.NarrowsTo e)
    (hef : e.NarrowsTo f) : trigger ∈ (between d f).triggers ↔
      trigger ∈ (between d e).triggers ∨ trigger ∈ (between e f).triggers := by
  have hue : e.InUniverse := fun v hv => hu v (hde.subset v hv)
  rw [mem_triggers_between h hu (hde.trans hef), mem_triggers_between h hu hde,
    mem_triggers_between hde.consistent hue hef, Trigger.setOff_trans h hde hef]

omit [t.Lawful] in
theorem between_self (d : Domain t) : between d d = .unchanged := if_pos rfl

/-! ### Summarising changes -/

theorem mem_triggers_mostSpecific {a b : Change} :
    trigger ∈ (mostSpecific a b).triggers ↔ trigger ∈ a.triggers ∨ trigger ∈ b.triggers := by
  cases a <;> cases b <;> cases trigger <;> decide

theorem mem_triggers_foldl {changes : List Change} {start : Change} :
    trigger ∈ (changes.foldl mostSpecific start).triggers ↔
      trigger ∈ start.triggers ∨ ∃ change ∈ changes, trigger ∈ change.triggers := by
  induction changes generalizing start with
  | nil => simp
  | cons change changes ih =>
    rw [List.foldl_cons, ih, mem_triggers_mostSpecific, or_assoc, List.exists_mem_cons_iff]

theorem eq_of_mem_triggers {a b : Change}
    (h : ∀ trigger, trigger ∈ a.triggers ↔ trigger ∈ b.triggers) : a = b := by
  have hground := h .ground
  have hbound := h .bound
  have hany := h .any
  clear h
  cases a <;> cases b <;> simp_all [triggers]

/-! ### Chains -/

def steps (d : Domain t) : List (Domain t) → List Change
  | [] => []
  | e :: rest => between d e :: steps e rest

omit [t.Lawful] in
theorem narrowsTo_getLastD {rest : List (Domain t)} (hde : d.NarrowsTo e)
    (hchain : (e :: rest).IsChain NarrowsTo) : d.NarrowsTo (rest.getLastD e) := by
  induction rest generalizing e with
  | nil => exact hde
  | cons f rest ih =>
    obtain ⟨hef, hrest⟩ := List.isChain_cons_cons.mp hchain
    rw [List.getLastD_cons]
    exact ih (hde.trans hef) hrest

theorem mem_triggers_steps {rest : List (Domain t)} (h : d.Consistent) (hu : d.InUniverse)
    (hchain : (d :: rest).IsChain NarrowsTo) :
    trigger ∈ (between d (rest.getLastD d)).triggers ↔
      ∃ change ∈ steps d rest, trigger ∈ change.triggers := by
  induction rest generalizing d with
  | nil => simp [between_self, triggers, steps]
  | cons e rest ih =>
    obtain ⟨hde, hrest⟩ := List.isChain_cons_cons.mp hchain
    have hue : e.InUniverse := fun v hv => hu v (hde.subset v hv)
    rw [List.getLastD_cons, mem_triggers_trans h hu hde (narrowsTo_getLastD hde.keeps hrest),
      ih hde.consistent hue hrest, steps, List.exists_mem_cons_iff]

/-- Along domains of the universe that only lose values, in whatever representations, the change
from the first to the last is the most specific of the steps. What it sets off is what some step
sets off. -/
theorem changes_compose {rest : List (Domain t)} (h : d.Consistent) (hu : d.InUniverse)
    (hchain : (d :: rest).IsChain NarrowsTo) :
    between d (rest.getLastD d) = (steps d rest).foldl mostSpecific .unchanged ∧
      ∀ trigger, trigger ∈ (between d (rest.getLastD d)).triggers ↔
        ∃ change ∈ steps d rest, trigger ∈ change.triggers := by
  refine ⟨eq_of_mem_triggers fun trigger => ?_, fun _ => mem_triggers_steps h hu hchain⟩
  rw [mem_triggers_steps h hu hchain, mem_triggers_foldl]
  simp [triggers]

/-- A value inside is lost, then none, then an end, and at last all values but one. -/
theorem changes_compose_mixed :
    let d : Domain .int32 := .intervals [⟨1, 5⟩]
    let rest : List (Domain .int32) :=
      [.sparse [1, 2, 3, 5], .intervals [⟨1, 3⟩, ⟨5, 5⟩], .sparse [1, 2, 3], .intervals [⟨2, 2⟩]]
    d.Consistent ∧ d.InUniverse ∧ (d :: rest).IsChain NarrowsTo ∧
      steps d rest = [.any, .unchanged, .bound, .ground] ∧
      between d (rest.getLastD d) = (steps d rest).foldl mostSpecific .unchanged ∧
      ∀ trigger, trigger ∈ (between d (rest.getLastD d)).triggers := by
  intro d rest
  have h : d.Consistent := by decide
  have hu : d.InUniverse := by decide
  have hchain : (d :: rest).IsChain NarrowsTo := by decide
  obtain ⟨hfold, hunion⟩ := changes_compose h hu hchain
  refine ⟨h, hu, hchain, by decide, hfold, fun trigger => (hunion trigger).mpr ?_⟩
  exact ⟨.ground, by decide, by cases trigger <;> decide⟩

end Change
end FiniteDomains
