import FiniteDomains.Proofs.Store.Backtracking
import FiniteDomains.Proofs.Variable.Snapshot

/-! The levels of a store cannot be observed without going back. Stores that show the same, each
with versions and levels of its own, answer every request alike and show the same again, and
entering a level changes nothing that is shown. So it makes no difference to a run where levels are
entered. -/
namespace FiniteDomains
variable {t : ValueType}

namespace StoreRequest

/-- A request that neither creates a variable, which is possible at the root only, nor goes back. -/
def GoesOn : StoreRequest t → Prop
  | .addRange _ _ | .addNamedRange _ _ _ | .addValues _ | .addVariable _ | .backtrack _ => False
  | _ => True

def entersLevel : StoreRequest t → Bool
  | .pushLevel => true
  | _ => false

/-- Requests without those that enter a level. -/
def levelFree (requests : List (StoreRequest t)) : List (StoreRequest t) :=
  requests.filter fun request => !request.entersLevel

def repliesFree (requests : List (StoreRequest t)) (replies : List StoreReply) :
    List StoreReply :=
  ((requests.zip replies).filter fun answered => !answered.1.entersLevel).map Prod.snd

theorem goesOn_of_levelFree {requests : List (StoreRequest t)}
    (h : ∀ request ∈ levelFree requests, request.GoesOn) :
    ∀ request ∈ requests, request.GoesOn := by
  intro request hmem
  cases hlevel : request.entersLevel with
  | true => cases request with
    | pushLevel => trivial
    | _ => cases hlevel
  | false => exact h request (List.mem_filter.mpr ⟨hmem, by simp [hlevel]⟩)

end StoreRequest

namespace Store
open StoreRequest
variable {α : Type} {s s' : Store t} {x : VarId}

/-- Two stores show the same now, whatever their levels and the versions of their variables are. -/
structure SameNow (s s' : Store t) : Prop where
  vars : s.vars.map Variable.snapshot = s'.vars.map Variable.snapshot
  woken : s.woken = s'.woken
  names : s.names = s'.names
  options : s.options = s'.options

theorem SameNow.refl (s : Store t) : s.SameNow s := ⟨rfl, rfl, rfl, rfl⟩

theorem SameNow.symm (h : s.SameNow s') : s'.SameNow s :=
  ⟨h.vars.symm, h.woken.symm, h.names.symm, h.options.symm⟩

theorem SameNow.trans {s'' : Store t} (h : s.SameNow s') (h' : s'.SameNow s'') :
    s.SameNow s'' :=
  ⟨h.vars.trans h'.vars, h.woken.trans h'.woken, h.names.trans h'.names,
    h.options.trans h'.options⟩

theorem SameNow.pushLevel (h : s.SameNow s') : s.SameNow s'.pushLevel :=
  ⟨h.vars, h.woken, h.names, h.options⟩

theorem SameNow.lookup (h : s.SameNow s') (x : VarId) :
    (s.vars[x]? = none ∧ s'.vars[x]? = none) ∨
      ∃ v v', s.vars[x]? = some v ∧ s'.vars[x]? = some v' ∧ v.SameNow v' := by
  have hx : (s.vars[x]?).map Variable.snapshot = (s'.vars[x]?).map Variable.snapshot := by
    rw [← List.getElem?_map, ← List.getElem?_map, h.vars]
  cases hv : s.vars[x]? with
  | none =>
    rw [hv, Option.map_none, eq_comm, Option.map_eq_none_iff] at hx
    exact .inl ⟨rfl, hx⟩
  | some v =>
    rw [hv, Option.map_some, eq_comm, Option.map_eq_some_iff] at hx
    obtain ⟨v', hv', hsame⟩ := hx
    exact .inr ⟨v, v', rfl, hv', hsame.symm⟩

/-! ### One request -/

theorem SameNow.replaced (h : s.SameNow s') (x : VarId) {v v' w w' : Variable t}
    (hw : w.SameNow w') : (s.replaced x v w).SameNow (s'.replaced x v' w') := by
  refine ⟨?_, h.woken, h.names, h.options⟩
  simp only [Store.replaced, List.map_set, h.vars]
  rw [show w.snapshot = w'.snapshot from hw]

section
variable (h : s.SameNow s') (hl : s.Layered) (hl' : s'.Layered)
include h hl hl'

theorem SameNow.update (x : VarId) (change : Variable t → Nat → Outcome (Variable t) α)
    (hchange : ∀ v v' : Variable t, v.SameNow v' → v.stamp ≤ s.level → v'.stamp ≤ s'.level →
      (change v s.level).Matches Variable.SameNow (change v' s'.level)) :
    (s.update x change).Matches SameNow (s'.update x change) := by
  rcases h.lookup x with ⟨hv, hv'⟩ | ⟨v, v', hv, hv', hsame⟩
  · rw [update_missing hv, update_missing hv']
    exact .fault _
  · rw [hl.update_eq hv, hl'.update_eq hv']
    have hs := hl.stamp_le v (List.mem_of_getElem? hv)
    have hs' := hl'.stamp_le v' (List.mem_of_getElem? hv')
    exact (hchange v v' hsame hs hs').mapState fun w w' hw => h.replaced x hw

omit hl hl' in
theorem SameNow.wake (x : VarId) (change : Change) :
    (s.wake x change).SameNow (s'.wake x change) := by
  rcases h.lookup x with ⟨hv, hv'⟩ | ⟨v, v', hv, hv', hsame⟩
  · simpa only [Store.wake, hv, hv'] using h
  · simp only [Store.wake, hv, hv', hsame.toWake_eq, h.woken]
    exact ⟨h.vars, rfl, h.names, h.options⟩

theorem SameNow.narrow (x : VarId) (n : Narrowing t) :
    (s.narrow x n).Matches SameNow (s'.narrow x n) := by
  have hupdate := h.update hl hl' x (fun v level => v.narrow level n)
    fun v v' hv hs hs' => hv.narrow hs hs' n
  exact hupdate.andThen fun r r' change hr => .done change (hr.wake x change)

omit hl hl' in
theorem SameNow.popWoken :
    s.popWoken.1 = s'.popWoken.1 ∧ s.popWoken.2.SameNow s'.popWoken.2 := by
  simp only [Store.popWoken, h.woken]
  split
  · exact ⟨rfl, h.vars, rfl, h.names, h.options⟩
  · exact ⟨rfl, h⟩

theorem SameNow.perform {request : StoreRequest t} (hr : request.GoesOn) :
    Agree (fun r r' => r.1 = r'.1 ∧ r.2.SameNow r'.2) (s.perform request)
      (s'.perform request) := by
  cases request with
  | addRange lo hi => exact hr.elim
  | addNamedRange lo hi name => exact hr.elim
  | addValues values => exact hr.elim
  | addVariable d => exact hr.elim
  | narrow x n => exact replying_agree (h.narrow hl hl' x n) _
  | subscribe x c trigger =>
    exact replying_agree (h.update hl hl' x _ fun v v' hv hs hs' => hv.subscribe hs hs' c trigger) _
  | unsubscribe x c =>
    exact replying_agree (h.update hl hl' x _ fun v v' hv hs hs' => hv.unsubscribe hs hs' c) _
  | activate x c =>
    exact replying_agree (h.update hl hl' x _ fun v v' hv hs hs' => hv.activate hs hs' c) _
  | deactivate x c =>
    exact replying_agree (h.update hl hl' x _ fun v v' hv hs hs' => hv.deactivate hs hs' c) _
  | deactivateAt x position =>
    exact replying_agree
      (h.update hl hl' x _ fun v v' hv hs hs' => hv.deactivateAt hs hs' position) _
  | pushLevel => exact .ok ⟨rfl, h.vars, h.woken, h.names, h.options⟩
  | backtrack level => exact hr.elim
  | popWoken => exact .ok ⟨congrArg StoreReply.popped h.popWoken.1, h.popWoken.2⟩
  | forgetWoken => exact .ok ⟨rfl, h.vars, rfl, h.names, h.options⟩

/-! ### Runs -/

omit h hl hl' in
theorem performAll_pushLevel (requests : List (StoreRequest t)) :
    s.performAll (.pushLevel :: requests) =
      (s.pushLevel.performAll requests).map fun r => (.finished :: r.1, r.2) := by
  rw [Store.performAll]
  simp only [Store.perform, bind, Except.bind]
  cases s.pushLevel.performAll requests <;> rfl

/-- A run shows what the same run shows that enters no levels. -/
theorem SameNow.performAll {requests : List (StoreRequest t)}
    (hgo : ∀ request ∈ requests, request.GoesOn) :
    Agree (fun r r' => r.1 = repliesFree requests r'.1 ∧ r.2.SameNow r'.2)
      (s.performAll (levelFree requests)) (s'.performAll requests) := by
  induction requests generalizing s s' with
  | nil => exact .ok ⟨rfl, h⟩
  | cons request requests ih =>
    obtain ⟨hr, hrest⟩ := List.forall_mem_cons.mp hgo
    cases hlevel : request.entersLevel with
    | true =>
      -- the level is entered on one side only, where nothing is shown of it
      cases request with
      | pushLevel =>
        have hrun := ih h.pushLevel hl hl'.pushLevel hrest
        have hfree : levelFree (.pushLevel :: requests) = levelFree requests := rfl
        rw [hfree, performAll_pushLevel]
        exact hrun.map_right fun _ _ hr => hr
      | _ => cases hlevel
    | false =>
      have hfree : levelFree (request :: requests) = request :: levelFree requests := by
        simp [levelFree, hlevel]
      rw [hfree]
      refine (h.perform hl hl' hr).given.bind fun first first' hfirst => ?_
      obtain ⟨⟨hreply, hsame⟩, hp, hp'⟩ := hfirst
      refine (ih hsame (hl.perform hp) (hl'.perform hp') hrest).bind fun rest rest' hanswers => ?_
      refine .ok ⟨?_, hanswers.2⟩
      simp [repliesFree, hlevel, hreply, hanswers.1]

end

/-- Forking cannot be observed without going back. If two sequences of requests differ only in where
levels are entered, every other request is answered alike, with the same fault if there is one, and
the stores show the same in the end. The variables are those of the store, since they are only
created at the root. -/
theorem forking_unobservable (hreach : s.Reachable) {requests raised : List (StoreRequest t)}
    (hgo : ∀ request ∈ requests, request.GoesOn)
    (hsame : levelFree raised = levelFree requests) :
    Agree (fun r r' => repliesFree requests r.1 = repliesFree raised r'.1 ∧ r.2.SameNow r'.2)
      (s.performAll requests) (s.performAll raised) := by
  have hl := hreach.layered
  have hraised : ∀ request ∈ raised, request.GoesOn := by
    apply goesOn_of_levelFree
    rw [hsame]
    exact fun request hmem => hgo request (List.mem_filter.mp hmem).1
  have hfirst := (SameNow.refl s).performAll hl hl hgo
  have hsecond := (SameNow.refl s).performAll hl hl hraised
  rw [hsame] at hsecond
  refine (hfirst.through hsecond).imp ?_
  rintro r r' ⟨free, ⟨hreplies, hshown⟩, hreplies', hshown'⟩
  exact ⟨hreplies.symm.trans hreplies', hshown.symm.trans hshown'⟩

def parkedStore : Store .int32 where
  vars := [
    ⟨0, ⟨.intervals [⟨0, 9⟩], 0, .empty, ⟨[6, 7, 5], 2, by decide⟩, false⟩, []⟩,
    ⟨1, ⟨.sparse [2, 4, 8], 0, .empty, ⟨[6], 1, by decide⟩, false⟩, []⟩]
  level := 0
  trail := []
  woken := .empty
  names := .empty
  options := .standard

def lowRequests : List (StoreRequest .int32) :=
  [.activate 0 9, .pushLevel, .subscribe 0 3 .bound, .narrow 0 (.atMost 5), .deactivateAt 0 0,
    .activate 0 5, .narrow 1 (.equalTo 3), .popWoken, .unsubscribe 0 3, .deactivate 0 7,
    .narrow 1 (.memberOf (.sparse [4, 5]))]

def highRequests : List (StoreRequest .int32) :=
  [.pushLevel, .activate 0 9, .subscribe 0 3 .bound, .pushLevel, .pushLevel, .narrow 0 (.atMost 5),
    .deactivateAt 0 0, .pushLevel, .activate 0 5, .narrow 1 (.equalTo 3), .popWoken,
    .unsubscribe 0 3, .pushLevel, .deactivate 0 7, .narrow 1 (.memberOf (.sparse [4, 5]))]

/-- The stores that are left differ in their levels, in the versions of a variable and in its parked
constraints. -/
theorem forking_unobservable_parked :
    parkedStore.Reachable ∧ (∀ request ∈ lowRequests, request.GoesOn) ∧
      levelFree highRequests = levelFree lowRequests ∧
      ∃ replies s replies' s', parkedStore.performAll lowRequests = .ok (replies, s) ∧
        parkedStore.performAll highRequests = .ok (replies', s') ∧
        repliesFree lowRequests replies = repliesFree highRequests replies' ∧ s.SameNow s' ∧
        s.level = 1 ∧ s'.level = 5 ∧
        s.vars.map Variable.stamps = [[1, 0], [1, 0]] ∧
        s'.vars.map Variable.stamps = [[5, 4, 3, 1, 0], [5, 0]] ∧
        s.vars.map (fun v => v.current.search.parked) = [[7, 6], []] ∧
        s'.vars.map (fun v => v.current.search.parked) = [[7], []] := by
  have hreach : parkedStore.Reachable :=
    ⟨.standard, [.addRange 0 9, .addValues [4, 2, 8], .activate 0 5, .activate 0 7, .activate 0 6,
      .deactivate 0 5, .activate 1 6], _, rfl⟩
  have hgo : ∀ request ∈ lowRequests, request.GoesOn := by simp [lowRequests, GoesOn]
  obtain ⟨replies, s, hrun, hlevel, hstamps, hparked⟩ : ∃ replies s,
      parkedStore.performAll lowRequests = .ok (replies, s) ∧ s.level = 1 ∧
        s.vars.map Variable.stamps = [[1, 0], [1, 0]] ∧
        s.vars.map (fun v => v.current.search.parked) = [[7, 6], []] :=
    ⟨_, _, rfl, rfl, rfl, rfl⟩
  obtain ⟨replies', s', hrun', hlevel', hstamps', hparked'⟩ : ∃ replies' s',
      parkedStore.performAll highRequests = .ok (replies', s') ∧ s'.level = 5 ∧
        s'.vars.map Variable.stamps = [[5, 4, 3, 1, 0], [5, 0]] ∧
        s'.vars.map (fun v => v.current.search.parked) = [[7], []] :=
    ⟨_, _, rfl, rfl, rfl, rfl⟩
  have hfree : levelFree highRequests = levelFree lowRequests := rfl
  have h := forking_unobservable hreach hgo hfree
  rw [hrun, hrun'] at h
  cases h with
  | ok h =>
    exact ⟨hreach, hgo, hfree, replies, s, replies', s', hrun, hrun', h.1, h.2, hlevel, hlevel',
      hstamps, hstamps', hparked, hparked'⟩

end Store
end FiniteDomains
