import FiniteDomains.Proofs.Store.Soundness
import FiniteDomains.Proofs.Variable.Matching

/-! How domains are represented cannot be observed. Stores that differ in the representation of
their domains and in nothing else answer every request with the same reply or the same fault, and
go on to differ in nothing else. -/
namespace FiniteDomains
variable {t : ValueType}

theorem Representation.domain_agree [t.Lawful] (r r' : Representation) {lo hi : Int}
    (hle : lo ≤ hi) (hlo : t.Admissible lo) (hhi : t.Admissible hi) :
    Agree (Domain.Matches (t := t)) (r.domain lo hi) (r'.domain lo hi) := by
  obtain ⟨d, hd, hvalid, hmem⟩ := r.domain_ok hle hlo.fits hhi.fits
  obtain ⟨d', hd', hvalid', hmem'⟩ := r'.domain_ok hle hlo.fits hhi.fits
  rw [hd, hd']
  refine .ok ⟨hvalid, hvalid', fun v hv => ?_, fun v => by rw [hmem, hmem']⟩
  obtain ⟨hlow, hhigh⟩ := (hmem v).mp hv
  exact ⟨Int.le_trans hlo.1 hlow, Int.le_trans hhigh hhi.2⟩

def StoreRequest.InUniverse : StoreRequest t → Prop
  | .addRange lo hi => t.Admissible lo ∧ t.Admissible hi
  | .addNamedRange lo hi _ => t.Admissible lo ∧ t.Admissible hi
  | .addValues values => ∀ v ∈ values, t.Admissible v
  | .addVariable d => d.Consistent ∧ d.InUniverse
  | .narrow _ n => n.InUniverse
  | _ => True

namespace Store
variable {α : Type} {s s' : Store t} {x : VarId} {v v' w w' : Variable t} {d d' : Domain t}

/-- Two stores differ at most in their options and in how their domains are represented. -/
structure Matches (s s' : Store t) : Prop where
  vars : List.Forall₂ Variable.Matches s.vars s'.vars
  level : s.level = s'.level
  trail : s.trail = s'.trail
  woken : s.woken = s'.woken
  names : s.names = s'.names

/-- The same answer, with stores that match. -/
def Answered (r r' : α × Store t) : Prop := r.1 = r'.1 ∧ r.2.Matches r'.2

theorem matches_empty (options options' : StoreOptions) :
    (empty options : Store t).Matches (empty options') :=
  ⟨.nil, rfl, rfl, rfl, rfl⟩

/-! ### Changing a variable -/

theorem lookup_matches {vars vars' : List (Variable t)}
    (h : List.Forall₂ Variable.Matches vars vars') (x : VarId) :
    (vars[x]? = none ∧ vars'[x]? = none) ∨
      ∃ v v', vars[x]? = some v ∧ vars'[x]? = some v' ∧ v.Matches v' := by
  induction h generalizing x with
  | nil => exact .inl ⟨rfl, rfl⟩
  | cons hfirst _ ih =>
    cases x with
    | zero => exact .inr ⟨_, _, rfl, rfl, hfirst⟩
    | succ x => simpa only [List.getElem?_cons_succ] using ih x

theorem set_matches {vars vars' : List (Variable t)}
    (h : List.Forall₂ Variable.Matches vars vars') (x : VarId) (hv : v.Matches v') :
    List.Forall₂ Variable.Matches (vars.set x v) (vars'.set x v') := by
  induction h generalizing x with
  | nil => exact .nil
  | cons hfirst hrest ih =>
    cases x with
    | zero => exact .cons hv hrest
    | succ x => exact .cons hfirst (ih x)

theorem Matches.noteFork (h : s.Matches s') (x : VarId) :
    Agree Matches (s.noteFork x) (s'.noteFork x) := by
  simp only [Store.noteFork, h.trail]
  split
  · exact .ok ⟨h.vars, h.level, rfl, h.woken, h.names⟩
  · exact .error _

theorem Matches.replace (h : s.Matches s') (x : VarId) (hv : v.Matches v') (hw : w.Matches w') :
    Agree Matches (s.replace x v w) (s'.replace x v' w') := by
  have hset : ({ s with vars := s.vars.set x w } : Store t).Matches
      { s' with vars := s'.vars.set x w' } :=
    ⟨set_matches h.vars x hw, h.level, h.trail, h.woken, h.names⟩
  simp only [Store.replace, hv.stamp, hw.stamp, h.level]
  split
  · exact h.level ▸ hset.noteFork x
  · exact .ok (h.level ▸ hset)

theorem Matches.update (h : s.Matches s') (x : VarId)
    (change : Variable t → Nat → Outcome (Variable t) α)
    (hchange : ∀ v v', v.Matches v' →
      (change v s'.level).Matches Variable.Matches (change v' s'.level)) :
    (s.update x change).Matches Matches (s'.update x change) := by
  rcases lookup_matches h.vars x with ⟨hv, hv'⟩ | ⟨v, v', hv, hv', hmatch⟩
  · simp only [Store.update, hv, hv']
    exact .fault _
  · simp only [Store.update, hv, hv', h.level]
    refine (hchange v v' hmatch).resume fun w w' a hw => ?_
    have hreplace := h.replace x hmatch hw
    generalize s.replace x v w = r at hreplace
    generalize s'.replace x v' w' = r' at hreplace
    cases hreplace with
    | ok hr => cases a with
      | some a => exact .done a hr
      | none => exact .emptied hr
    | error cause => exact .fault cause

theorem Matches.wake (h : s.Matches s') (x : VarId) (change : Change) :
    (s.wake x change).Matches (s'.wake x change) := by
  rcases lookup_matches h.vars x with ⟨hv, hv'⟩ | ⟨v, v', hv, hv', hmatch⟩
  · simpa only [Store.wake, hv, hv'] using h
  · simp only [Store.wake, hv, hv', hmatch.toWake_eq, h.woken]
    exact ⟨h.vars, h.level, h.trail, rfl, h.names⟩

theorem Matches.narrow [t.Lawful] (h : s.Matches s') (x : VarId) {n : Narrowing t}
    (hn : n.InUniverse) : (s.narrow x n).Matches Matches (s'.narrow x n) := by
  have hupdate := h.update x (fun v level => v.narrow level n)
    fun v v' hv => hv.narrow s'.level hn
  exact hupdate.andThen fun r r' change hr => .done change (hr.wake x change)

/-! ### New variables -/

theorem Matches.addVariable (h : s.Matches s') (hd : d.Matches d') :
    Agree Answered (s.addVariable d) (s'.addVariable d') := by
  have hlength : s.vars.length = s'.vars.length := h.vars.length_eq
  simp only [Store.addVariable, h.level, hlength]
  split
  · have hmake := Variable.make_agree s'.vars.length hd
    generalize Variable.make s'.vars.length d = r at hmake
    generalize Variable.make s'.vars.length d' = r' at hmake
    cases hmake with
    | ok hv =>
      refine .ok ⟨rfl, ?_⟩
      exact ⟨List.rel_append h.vars (.cons hv .nil), rfl, h.trail, h.woken, h.names⟩
    | error cause => exact .error cause
  · exact .error _

theorem Matches.addRange [t.Lawful] (h : s.Matches s') {lo hi : Int} (hlo : t.Admissible lo)
    (hhi : t.Admissible hi) : Agree Answered (s.addRange lo hi) (s'.addRange lo hi) := by
  simp only [Store.addRange]
  split
  · exact .error _
  · next hle =>
    have hmade := s.options.representation.domain_agree s'.options.representation
      (Int.not_lt.mp hle) hlo hhi
    generalize (s.options.representation.domain lo hi : Except Fault (Domain t)) = r at hmade
    generalize (s'.options.representation.domain lo hi : Except Fault (Domain t)) = r' at hmade
    cases hmade with
    | ok hd => exact h.addVariable hd
    | error cause => exact .error cause

theorem Matches.addNamedRange [t.Lawful] (h : s.Matches s') {lo hi : Int} (hlo : t.Admissible lo)
    (hhi : t.Admissible hi) (name : String) :
    Agree Answered (s.addNamedRange lo hi name) (s'.addNamedRange lo hi name) := by
  have hadd := h.addRange hlo hhi
  simp only [Store.addNamedRange]
  generalize s.addRange lo hi = r at hadd
  generalize s'.addRange lo hi = r' at hadd
  cases hadd with
  | ok hr =>
    obtain ⟨hx, hr⟩ := hr
    exact .ok ⟨hx, hr.vars, hr.level, hr.trail, hr.woken, by rw [hx, hr.names]⟩
  | error cause => exact .error cause

/-! ### Levels -/

theorem restore_agree (level : Nat) (xs : List VarId) {vars vars' : List (Variable t)}
    (h : List.Forall₂ Variable.Matches vars vars') :
    Agree (List.Forall₂ Variable.Matches) (restore level xs vars) (restore level xs vars') := by
  induction xs generalizing vars vars' with
  | nil => exact .ok h
  | cons x xs ih =>
    rcases lookup_matches h x with ⟨hv, hv'⟩ | ⟨v, v', hv, hv', hmatch⟩
    · simp only [restore, hv, hv']
      exact .error _
    · simp only [restore, hv, hv']
      exact ih (set_matches h x (hmatch.backTo level))

theorem Matches.backtrack (h : s.Matches s') (level : Nat) :
    Agree Matches (s.backtrack level) (s'.backtrack level) := by
  simp only [Store.backtrack, h.level, h.trail]
  split
  · exact .error _
  · have hrestore := restore_agree level (s'.trail.take (s'.level - level)).flatten h.vars
    generalize restore level (s'.trail.take (s'.level - level)).flatten s.vars = r at hrestore
    generalize restore level (s'.trail.take (s'.level - level)).flatten s'.vars = r' at hrestore
    cases hrestore with
    | ok hvars => exact .ok ⟨hvars, rfl, rfl, rfl, h.names⟩
    | error cause => exact .error cause

theorem Matches.pushLevel (h : s.Matches s') : s.pushLevel.Matches s'.pushLevel :=
  ⟨h.vars, congrArg Nat.succ h.level, congrArg (List.cons []) h.trail, h.woken, h.names⟩

theorem Matches.popWoken (h : s.Matches s') : Answered s.popWoken s'.popWoken := by
  simp only [Store.popWoken, h.woken]
  split
  · exact ⟨rfl, h.vars, h.level, h.trail, rfl, h.names⟩
  · exact ⟨rfl, h⟩

theorem Matches.forgetWoken (h : s.Matches s') : s.forgetWoken.Matches s'.forgetWoken :=
  ⟨h.vars, h.level, h.trail, rfl, h.names⟩

/-! ### Requests -/

theorem adding_agree {r r' : Except Fault (VarId × Store t)} (h : Agree Answered r r') :
    Agree Answered (adding r) (adding r') := by
  cases h with
  | ok h => exact .ok ⟨congrArg StoreReply.added h.1, h.2⟩
  | error cause => exact .error cause

theorem Matches.perform [t.Lawful] (h : s.Matches s') {request : StoreRequest t}
    (hin : request.InUniverse) : Agree Answered (s.perform request) (s'.perform request) := by
  cases request with
  | addRange lo hi => exact adding_agree (h.addRange hin.1 hin.2)
  | addNamedRange lo hi name => exact adding_agree (h.addNamedRange hin.1 hin.2 name)
  | addValues values =>
    have hu : (Domain.ofValues values : Domain t).InUniverse :=
      fun v hv => hin v (Domain.mem_ofValues.mp hv)
    exact adding_agree (h.addVariable (hu.matches_self (Points.ofList_consistent values)))
  | addVariable d => exact adding_agree (h.addVariable (hin.2.matches_self hin.1))
  | narrow x n => exact replying_agree (h.narrow x hin) _
  | subscribe x c trigger =>
    exact replying_agree (h.update x _ fun v v' hv => hv.subscribe _ c trigger) _
  | unsubscribe x c => exact replying_agree (h.update x _ fun v v' hv => hv.unsubscribe _ c) _
  | activate x c => exact replying_agree (h.update x _ fun v v' hv => hv.activate _ c) _
  | deactivate x c => exact replying_agree (h.update x _ fun v v' hv => hv.deactivate _ c) _
  | deactivateAt x position =>
    exact replying_agree (h.update x _ fun v v' hv => hv.deactivateAt _ position) _
  | pushLevel => exact .ok ⟨rfl, h.pushLevel⟩
  | backtrack level =>
    have hback := h.backtrack level
    simp only [Store.perform]
    generalize s.backtrack level = r at hback
    generalize s'.backtrack level = r' at hback
    cases hback with
    | ok hr => exact .ok ⟨rfl, hr⟩
    | error cause => exact .error cause
  | popWoken => exact .ok ⟨congrArg StoreReply.popped h.popWoken.1, h.popWoken.2⟩
  | forgetWoken => exact .ok ⟨rfl, h.forgetWoken⟩

theorem Matches.performAll [t.Lawful] (h : s.Matches s') {requests : List (StoreRequest t)}
    (hin : ∀ request ∈ requests, request.InUniverse) :
    Agree Answered (s.performAll requests) (s'.performAll requests) := by
  induction requests generalizing s s' with
  | nil => exact .ok ⟨rfl, h⟩
  | cons request requests ih =>
    have hrest : ∀ request ∈ requests, request.InUniverse :=
      fun r hr => hin r (List.mem_cons_of_mem _ hr)
    refine (h.perform (hin request List.mem_cons_self)).bind fun first first' hfirst => ?_
    refine (ih hfirst.2 hrest).bind fun rest rest' hanswers => ?_
    exact .ok ⟨by rw [hfirst.1, hanswers.1], hanswers.2⟩

/-! ### What a store shows -/

/-- Two stores are the same to see, where domains are seen as sets. -/
structure LooksLike (s s' : Store t) : Prop where
  level : s.level = s'.level
  woken : s.woken = s'.woken
  names : s.names = s'.names
  vars : List.Forall₂ Variable.LooksLike s.vars s'.vars
  lowerBound : ∀ x, s.lowerBound x = s'.lowerBound x
  upperBound : ∀ x, s.upperBound x = s'.upperBound x
  bounds : ∀ x, s.bounds x = s'.bounds x
  isFixed : ∀ x, s.isFixed x = s'.isFixed x

theorem Matches.domain (h : s.Matches s') (x : VarId) :
    Agree Domain.Matches (s.domain x) (s'.domain x) := by
  rcases lookup_matches h.vars x with ⟨hv, hv'⟩ | ⟨v, v', hv, hv', hmatch⟩
  · simp only [Store.domain, var, hv, hv']
    exact .error _
  · simp only [Store.domain, var, hv, hv']
    exact .ok hmatch.values

theorem Matches.read_eq (h : s.Matches s') (x : VarId) {f : Domain t → Except Fault α}
    (hf : ∀ d d', d.Matches d' → f d = f d') : (s.domain x >>= f) = (s'.domain x >>= f) :=
  agree_eq_iff.mp ((h.domain x).bind fun d d' hd => agree_eq_iff.mpr (hf d d' hd))

theorem Matches.looksLike [t.Lawful] (h : s.Matches s') : s.LooksLike s' := by
  have hlower (x : VarId) : s.lowerBound x = s'.lowerBound x :=
    h.read_eq x fun d d' hd => by rw [hd.min?_eq]
  have hupper (x : VarId) : s.upperBound x = s'.upperBound x :=
    h.read_eq x fun d d' hd => by rw [hd.max?_eq]
  exact
    { level := h.level
      woken := h.woken
      names := h.names
      vars := h.vars.imp fun _ _ hv => hv.looksLike
      lowerBound := hlower
      upperBound := hupper
      bounds := fun x => by rw [bounds, bounds, hlower, hupper]
      isFixed := fun x => h.read_eq x fun d d' hd => by rw [hd.isSingleton_eq] }

/-- In whatever way two stores represent the ranges that variables are created with, they answer
requests with the same replies or the same fault, and are then the same to see. -/
theorem representation_unobservable [t.Lawful] (options options' : StoreOptions)
    {requests : List (StoreRequest t)} (hin : ∀ request ∈ requests, request.InUniverse) :
    Agree (fun r r' => r.1 = r'.1 ∧ r.2.LooksLike r'.2)
      ((empty options).performAll requests) ((empty options').performAll requests) :=
  ((matches_empty options options').performAll hin).imp fun _ _ h => ⟨h.1, h.2.looksLike⟩

/-- Requests that change variables which are sparse for one store and intervals for another, and
some of which fail. -/
def mixedRequests : List (StoreRequest .int32) :=
  [.addRange 0 9, .addNamedRange (-4) 90 "wide", .subscribe 0 3 .bound, .subscribe 1 4 .any,
    .pushLevel, .narrow 0 (.outside 4 6), .narrow 1 (.memberOf (.sparse [3, 8, 20])),
    .activate 0 7, .narrow 1 (.equalTo 5), .popWoken, .pushLevel,
    .narrow 0 (.shiftedMemberOf (.intervals [⟨1, 4⟩]) 5)]

theorem representation_unobservable_mixed :
    (∀ request ∈ mixedRequests, request.InUniverse) ∧
      ∃ replies s s', (empty ⟨.intervals, 8⟩).performAll mixedRequests = .ok (replies, s) ∧
        (empty ⟨.sparseUpTo 20, 8⟩).performAll mixedRequests = .ok (replies, s') ∧
        s.vars.map (fun v => v.values.isSparse) = [false, false] ∧
        s'.vars.map (fun v => v.values.isSparse) = [true, false] ∧ s.LooksLike s' := by
  have hsome : (.sparse [3, 8, 20] : Domain .int32).Consistent ∧
      (.sparse [3, 8, 20] : Domain .int32).InUniverse := by
    simp [Domain.Consistent, Points.Consistent, Domain.InUniverse, ValueType.admissible_int32]
  have hmoved : (.intervals [⟨1, 4⟩] : Domain .int32).Consistent ∧
      (.intervals [⟨1, 4⟩] : Domain .int32).InUniverse := by
    simp only [Domain.Consistent, Runs.Consistent, Domain.InUniverse, Domain.forall_mem_intervals,
      List.forall_mem_singleton, Interval.mem_iff, ValueType.admissible_int32]
    refine ⟨by simp, fun v hv => by omega⟩
  have hin : ∀ request ∈ mixedRequests, request.InUniverse := by
    simp only [mixedRequests, List.forall_mem_cons]
    have hnear (v : Int) (hlo : -4 ≤ v) (hhi : v ≤ 90) : ValueType.int32.Admissible v := by
      rw [ValueType.admissible_int32]
      omega
    exact ⟨⟨hnear 0 (by decide) (by decide), hnear 9 (by decide) (by decide)⟩,
      ⟨hnear (-4) (by decide) (by decide), hnear 90 (by decide) (by decide)⟩, trivial, trivial,
      trivial, trivial, hsome, trivial, trivial, trivial, trivial, hmoved, by simp⟩
  obtain ⟨replies, s, hrun, hintervals⟩ : ∃ replies s,
      (empty ⟨.intervals, 8⟩).performAll mixedRequests = .ok (replies, s) ∧
        s.vars.map (fun v => v.values.isSparse) = [false, false] := ⟨_, _, rfl, rfl⟩
  obtain ⟨replies', s', hrun', hsparse⟩ : ∃ replies' s',
      (empty ⟨.sparseUpTo 20, 8⟩).performAll mixedRequests = .ok (replies', s') ∧
        s'.vars.map (fun v => v.values.isSparse) = [true, false] := ⟨_, _, rfl, rfl⟩
  have h := representation_unobservable ⟨.intervals, 8⟩ ⟨.sparseUpTo 20, 8⟩ hin
  rw [hrun, hrun'] at h
  cases h with
  | ok h =>
    obtain ⟨rfl, hlooks⟩ := h
    exact ⟨hin, _, s, s', hrun, hrun', hintervals, hsparse, hlooks⟩

end Store
end FiniteDomains
