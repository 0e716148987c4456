import FiniteDomains.Proofs.Domain.Changes
import FiniteDomains.Proofs.Store.Soundness

/-! The constraints that a narrowing wakes. Changes are told apart by sizes and ends, yet what is
woken depends only on the set of values before and after: the constraints that wait for what has
happened to it go behind the queue, in the order of what they wait for. -/
namespace FiniteDomains

namespace Variable
variable {t : ValueType} {v : Variable t} {d : Domain t} {c : ConstraintId}

/-- The constraints that wait for what happens when a variable goes over to a part of its values,
in the order in which they are woken. -/
def awaiting (v : Variable t) (d : Domain t) : List ConstraintId :=
  (if d.toFinset.card = 1 then v.current.model.ground else []) ++
    (if d.min? ≠ v.values.min? ∨ d.max? ≠ v.values.max? then v.current.model.bound else []) ++
    v.current.model.any ++ v.current.search.active

/-- A queue after a variable has gone over to some values. Nothing is woken if they are the values
it had. -/
structure Wakes (v : Variable t) (d : Domain t) (before after : WakeQueue) : Prop where
  mem : ∀ c, c ∈ after.waiting ↔ c ∈ before.waiting ∨ d.toFinset ≠ v.values.toFinset ∧
    (c ∈ v.current.search.active ∨ c ∈ v.current.model.any ∨
      (c ∈ v.current.model.bound ∧ (d.min? ≠ v.values.min? ∨ d.max? ≠ v.values.max?)) ∨
      (c ∈ v.current.model.ground ∧ ∃ w, d.toFinset = {w}))
  waiting : after.waiting = before.waiting ++
    if d.toFinset = v.values.toFinset then []
    else ((v.awaiting d).removeAll before.waiting).eraseDups

theorem mem_awaiting : c ∈ v.awaiting d ↔
    c ∈ v.current.search.active ∨ c ∈ v.current.model.any ∨
      (c ∈ v.current.model.bound ∧ (d.min? ≠ v.values.min? ∨ d.max? ≠ v.values.max?)) ∨
      (c ∈ v.current.model.ground ∧ ∃ w, d.toFinset = {w}) := by
  simp only [awaiting, List.mem_append, List.mem_ite_nil_right, Finset.card_eq_one]
  tauto

theorem Part.ends_ne (hd : v.Part d) (hv : v.values.Valid) (hone : d.isSingleton = true) :
    d.min? ≠ v.values.min? ∨ d.max? ≠ v.values.max? := by
  -- A part of one value cannot have both ends of a variable with more than one.
  obtain ⟨w, hw, hlost⟩ := Finset.exists_of_ssubset (hd.toFinset_ssubset hv)
  rw [Domain.mem_toFinset] at hw hlost
  have hmoved : Trigger.bound.SetOff v.values d :=
    Trigger.setOff_of_isSingleton hv.consistent ⟨hd.valid.consistent, hd.nonempty, hd.subset⟩ hw
      hlost hone
  exact hmoved

theorem Part.toWake_eq (hd : v.Part d) (hv : v.values.Valid) :
    v.toWake (.between v.values d) = v.awaiting d := by
  have hcard : d.isSingleton = true ↔ d.toFinset.card = 1 := by
    rw [Domain.isSingleton_iff hd.valid.consistent, Finset.card_eq_one]
  rw [Change.between, if_neg hd.size_ne, awaiting]
  by_cases hone : d.isSingleton = true
  · rw [if_pos hone, if_pos (hcard.mp hone), if_pos (hd.ends_ne hv hone)]
    simp [toWake, Change.triggers, Change.isChange, Subscriptions.waiting]
  · rw [if_neg hone, if_neg (mt hcard.mpr hone)]
    split <;> simp [toWake, Change.triggers, Change.isChange, Subscriptions.waiting]

theorem wakes_none (v : Variable t) (q : WakeQueue) : v.Wakes v.values q q where
  mem := by simp
  waiting := by simp

theorem Part.wakes (hd : v.Part d) (hv : v.values.Valid) (q : WakeQueue) :
    v.Wakes d q (q.enqueueAll (v.toWake (.between v.values d))) where
  mem := by
    intro c
    rw [WakeQueue.mem_enqueueAll, hd.toWake_eq hv, mem_awaiting]
    exact or_congr_right (iff_and_self.mpr fun _ => (hd.toFinset_ssubset hv).ne)
  waiting := by
    rw [WakeQueue.enqueueAll_eq, hd.toWake_eq hv, if_neg (hd.toFinset_ssubset hv).ne]

end Variable

namespace Store
variable {t : ValueType} {s : Store t} {x : VarId} {v : Variable t} {n : Narrowing t}

/-- A narrowing wakes exactly the constraints that wait for what has happened to the values of its
variable, behind those that waited before. One that fails wakes nothing. -/
theorem narrowing_wakes_exactly [t.Lawful] (hreach : s.Attained) (hv : s.vars[x]? = some v)
    (hn : n.Proper) (hroom : n.Room v.values) :
    (s.narrow x n).Ends
        (fun s' _ => ∃ v', s'.vars[x]? = some v' ∧ v.Wakes v'.values s.woken s'.woken)
        (fun s' => s'.woken = s.woken) ∨
      ∃ offset, n.Refused offset ∧ s.narrow x n = .fault (.shiftOutside offset) := by
  have h : s.WellFormed := hreach.sound.toWellFormed
  have hresult := narrow_result h hv hn hroom
  generalize s.narrow x n = outcome at hresult
  cases hresult with
  | emptied _ => exact .inl rfl
  | kept d _ _ => exact .inl ⟨v, hv, v.wakes_none s.woken⟩
  | changed d _ hpart =>
    refine .inl ⟨v.setValues s.level d, by rw [narrowed_getElem? hv, if_pos rfl], ?_⟩
    rw [Variable.setValues_values]
    exact hpart.wakes (h.current hv).valid s.woken
  | refused offset href => exact .inr ⟨offset, href, rfl⟩

/-- A variable above the root that constraints of all kinds wait for, while one waits to be run. -/
def watched : Variable .int32 :=
  ⟨0, ⟨.sparse [2, 4, 8], 1, ⟨[3], [5, 3], [4]⟩, ⟨[7, 6], 1, by decide⟩, false⟩,
    [⟨.sparse [2, 4, 8], 0, ⟨[3], [5, 3], [4]⟩, .empty, false⟩]⟩

def watching : Store .int32 where
  vars := [watched, ⟨1, ⟨.intervals [⟨0, 6⟩], 1, ⟨[], [4], []⟩, .empty, true⟩,
    [⟨.intervals [⟨0, 9⟩], 0, ⟨[], [4], []⟩, .empty, false⟩]⟩]
  level := 1
  trail := [[1, 0]]
  woken := WakeQueue.empty.enqueueAll [4]
  names := .empty
  options := .standard

theorem narrowing_wakes_exactly_grounded :
    watching.Attained ∧ watching.vars[0]? = some watched ∧
      ∃ s' v', watching.narrow 0 (.equalTo 4) = .done s' .ground ∧ s'.vars[0]? = some v' ∧
        v'.values.toFinset = {4} ∧ s'.woken.waiting = [4, 3, 5, 7] ∧
        watched.Wakes v'.values watching.woken s'.woken := by
  have hreach : watching.Attained :=
    ⟨.standard, [.addValues [2, 4, 8], .addRange 0 9, .subscribe 0 3 .ground, .subscribe 0 5 .bound,
      .subscribe 0 3 .bound, .subscribe 0 4 .any, .subscribe 1 4 .bound, .pushLevel,
      .activate 0 7, .activate 0 6, .deactivate 0 6, .narrow 1 (.atMost 6)], _,
      And.intro ⟨rfl, by decide, by decide⟩ <| And.intro ⟨rfl, by decide, rfl, rfl⟩ <|
      And.intro (by decide : 0 < 2) <| And.intro (by decide : 0 < 2) <|
      And.intro (by decide : 0 < 2) <| And.intro (by decide : 0 < 2) <|
      And.intro (by decide : 1 < 2) <| And.intro trivial <| And.intro (by decide : 0 < 2) <|
      And.intro (by decide : 0 < 2) <| And.intro (by decide : 0 < 2) <|
      And.intro ⟨by decide, trivial, fun _ _ => trivial⟩ trivial, rfl⟩
  have hvar : watching.vars[0]? = some watched := rfl
  refine ⟨hreach, hvar, ?_⟩
  rcases narrowing_wakes_exactly (n := .equalTo 4) hreach hvar trivial trivial with
    hends | ⟨_, href, -⟩
  · obtain ⟨v', hv', hwakes⟩ := hends
    obtain rfl : _ = v' := Option.some.inj hv'
    exact ⟨_, _, rfl, rfl, rfl, rfl, hwakes⟩
  · exact href.elim

end Store
end FiniteDomains
