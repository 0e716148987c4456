import FiniteDomains.Engine.Basic
import FiniteDomains.Proofs.Store.Backtracking
import FiniteDomains.Proofs.Variable.Refinement
import Mathlib.Logic.Relation

/-! Narrowings of a store. One that changes the store takes values from one variable and wakes the
constraints that wait for that; sequences of such steps keep what the narrowings have in common. -/
namespace FiniteDomains

namespace Variable
variable {t : ValueType} {v : Variable t}

def registered (v : Variable t) : List ConstraintId :=
  v.current.model.ground ++ v.current.model.bound ++ v.current.model.any ++ v.current.search.active

theorem registered_length (v : Variable t) : v.registered.length = v.waitingCount := by
  simp only [registered, waitingCount, Subscriptions.length, ActiveSet.length_active,
    List.length_append]

theorem mem_registered {c : ConstraintId} : c ∈ v.registered ↔
    (∃ trigger, c ∈ v.current.model.waiting trigger) ∨ c ∈ v.current.search.active := by
  simp only [registered, List.mem_append]
  constructor
  · rintro (((hc | hc) | hc) | hc)
    · exact .inl ⟨.ground, hc⟩
    · exact .inl ⟨.bound, hc⟩
    · exact .inl ⟨.any, hc⟩
    · exact .inr hc
  · rintro (⟨trigger, hc⟩ | hc)
    · cases trigger with
      | ground => exact .inl (.inl (.inl hc))
      | bound => exact .inl (.inl (.inr hc))
      | any => exact .inl (.inr hc)
    · exact .inr hc

theorem toWake_registered {change : Change} {c : ConstraintId} (h : c ∈ v.toWake change) :
    c ∈ v.registered := by
  simp only [toWake, List.mem_append, List.mem_flatMap] at h
  rw [mem_registered]
  rcases h with ⟨trigger, -, hc⟩ | hc
  · exact .inl ⟨trigger, hc⟩
  · split at hc
    · exact .inr hc
    · cases hc

end Variable

namespace Store
variable {t : ValueType} {s s' s'' : Store t} {x y : VarId} {v : Variable t} {d : Domain t}
variable {n : Narrowing t} {c : ConstraintId}

/-- A store with its levels in order and only filled versions. -/
structure WellFormed (s : Store t) : Prop extends s.Layered where
  filled : ∀ v ∈ s.vars, ∀ w ∈ v.versions, w.Filled

theorem WellFormed.current (h : s.WellFormed) (hv : s.vars[x]? = some v) : v.current.Filled :=
  h.filled v (List.mem_of_getElem? hv) _ List.mem_cons_self

theorem WellFormed.stamp (h : s.WellFormed) (hv : s.vars[x]? = some v) : v.stamp ≤ s.level :=
  h.stamp_le v (List.mem_of_getElem? hv)

def narrowed (s : Store t) (x : VarId) (v : Variable t) (d : Domain t) : Store t :=
  { s.replaced x v (v.setValues s.level d) with
    woken := s.woken.enqueueAll (v.toWake (.between v.values d)) }

/-- What a narrowing of a variable of a store ends with. -/
inductive NarrowResult (s : Store t) (x : VarId) (v : Variable t) (n : Narrowing t) :
    Outcome (Store t) Change → Prop
  | emptied : (∀ w ∈ v.values, ¬n.Keeps w) → NarrowResult s x v n (.emptied s)
  | kept (d : Domain t) : v.Narrowed n d → d.size = v.values.size →
      NarrowResult s x v n (.done s .unchanged)
  | changed (d : Domain t) : v.Narrowed n d → v.Part d →
      NarrowResult s x v n (.done (s.narrowed x v d) (.between v.values d))
  | refused (offset : Int) : n.Refused offset →
      NarrowResult s x v n (.fault (.shiftOutside offset))

theorem wake_unchanged (s : Store t) (x : VarId) : s.wake x .unchanged = s := by
  simp only [wake]
  split <;> rfl

theorem wake_replaced (hv : s.vars[x]? = some v) (change : Change) :
    (s.replaced x v (v.setValues s.level d)).wake x change =
      { s.replaced x v (v.setValues s.level d) with
        woken := s.woken.enqueueAll (v.toWake change) } := by
  have hwake : (v.setValues s.level d).toWake change = v.toWake change := by
    simp [Variable.toWake]
  rw [wake, replaced_getElem? hv, if_pos rfl]
  simp only [hwake]
  rfl

theorem narrow_result [t.Lawful] (h : s.WellFormed) (hv : s.vars[x]? = some v) (hn : n.Proper)
    (hroom : n.Room v.values) : NarrowResult s x v n (s.narrow x n) := by
  have hresult := Variable.narrow_result (h.current hv) (h.stamp hv) hn hroom
  rw [narrow, h.update_eq hv]
  generalize v.narrow s.level n = outcome at hresult
  cases hresult with
  | emptied hnone =>
    simp only [Outcome.mapState, Outcome.andThen, replaced_self hv]
    exact .emptied hnone
  | kept d hd hsize =>
    simp only [Outcome.mapState, Outcome.andThen, replaced_self hv, wake_unchanged]
    exact .kept d hd hsize
  | changed d hd hne hsize =>
    simp only [Outcome.mapState, Outcome.andThen, wake_replaced hv]
    exact .changed d hd (hd.part hne hsize)
  | refused offset href => exact .refused offset href

theorem narrow_done [t.Lawful] (h : s.WellFormed) (hv : s.vars[x]? = some v) (hn : n.Proper)
    (hroom : n.Room v.values) {change : Change} (hout : s.narrow x n = .done s' change) :
    (∃ d, v.Narrowed n d ∧ d.size = v.values.size ∧ s' = s ∧ change = .unchanged) ∨
      ∃ d, v.Narrowed n d ∧ v.Part d ∧ s' = s.narrowed x v d ∧
        change = .between v.values d := by
  have hresult := narrow_result h hv hn hroom
  rw [hout] at hresult
  cases hresult with
  | kept d hd hsize => exact .inl ⟨d, hd, hsize, rfl, rfl⟩
  | changed d hd hpart => exact .inr ⟨d, hd, hpart, rfl, rfl⟩

/-! ### One change -/

inductive Shrinks (s : Store t) : Store t → Prop
  | at (x : VarId) (v : Variable t) (d : Domain t) : s.vars[x]? = some v → v.Part d →
      Shrinks s (s.narrowed x v d)

theorem narrowed_getElem? (hv : s.vars[x]? = some v) (y : VarId) :
    (s.narrowed x v d).vars[y]? = if y = x then some (v.setValues s.level d) else s.vars[y]? :=
  replaced_getElem? hv y

theorem WellFormed.replaced {v' : Variable t} (h : s.WellFormed) (hv : s.vars[x]? = some v)
    (hc : v.Changed s.level v') (hfilled : v'.current.Filled) :
    (s.replaced x v v').WellFormed := by
  refine ⟨h.toLayered.replaced hv hc, ?_⟩
  intro u hu w hw
  rcases List.mem_or_eq_of_mem_set hu with hu | rfl
  · exact h.filled u hu w hw
  · rcases hc.mem_versions hw with rfl | hw
    · exact hfilled
    · exact h.filled v (List.mem_of_getElem? hv) w hw

theorem Shrinks.wellFormed (hs : s.Shrinks s') (h : s.WellFormed) : s'.WellFormed := by
  obtain ⟨x, v, d, hv, hd⟩ := hs
  have hrefined := hd.refined (h.stamp hv)
  have hreplaced := h.replaced hv hrefined.changed hrefined.filled
  exact ⟨hreplaced.toLayered.withWoken _, hreplaced.filled⟩

theorem Shrinks.restored (hs : s.Shrinks s') (h : s.WellFormed) {low : Nat} (hl : low < s.level) :
    s'.restored low = s.restored low := by
  obtain ⟨x, v, d, hv, hd⟩ := hs
  exact h.restored_replaced hv (Variable.setValues_changed (h.stamp hv) d) hl

theorem sum_map_set_lt {α : Type} {f : α → Nat} {l : List α} {i : Nat} {a b : α}
    (ha : l[i]? = some a) (hlt : f b < f a) : ((l.set i b).map f).sum < (l.map f).sum := by
  induction l generalizing i with
  | nil => cases ha
  | cons u us ih =>
    cases i with
    | zero =>
      cases ha
      simpa using hlt
    | succ i =>
      simpa using ih ha

theorem cardinality_eq (s : Store t) :
    s.cardinality = (s.vars.map fun v => v.values.cardinality).sum := by
  rw [List.sum_eq_foldr, List.foldr_map]
  rfl

theorem Shrinks.cardinality_lt (hs : s.Shrinks s') (h : s.WellFormed) :
    s'.cardinality < s.cardinality := by
  obtain ⟨x, v, d, hv, hd⟩ := hs
  rw [cardinality_eq, cardinality_eq]
  apply sum_map_set_lt hv
  rw [Variable.setValues_values]
  exact hd.cardinality_lt (h.current hv).valid

/-- One store has the variables of another one with the same constraints waiting for them, and no
values that the other one does not have. -/
structure Tighter (s s' : Store t) : Prop where
  level : s'.level = s.level
  length : s'.vars.length = s.vars.length
  var : ∀ (x : VarId) (v : Variable t), s.vars[x]? = some v → ∃ v', s'.vars[x]? = some v' ∧
    v'.current.model = v.current.model ∧ v'.current.search = v.current.search ∧
      ∀ w ∈ v'.values, w ∈ v.values

theorem Tighter.refl (s : Store t) : s.Tighter s :=
  ⟨rfl, rfl, fun _ v hv => ⟨v, hv, rfl, rfl, fun _ hw => hw⟩⟩

theorem Tighter.trans (h : s.Tighter s') (h' : s'.Tighter s'') : s.Tighter s'' := by
  refine ⟨h'.level.trans h.level, h'.length.trans h.length, ?_⟩
  intro x v hv
  obtain ⟨v', hv', hmodel, hsearch, hsub⟩ := h.var x v hv
  obtain ⟨v'', hv'', hmodel', hsearch', hsub'⟩ := h'.var x v' hv'
  exact ⟨v'', hv'', hmodel'.trans hmodel, hsearch'.trans hsearch, fun w hw => hsub w (hsub' w hw)⟩

theorem Shrinks.tighter (hs : s.Shrinks s') : s.Tighter s' := by
  obtain ⟨x, v, d, hv, hd⟩ := hs
  refine ⟨rfl, by simp [narrowed, replaced], ?_⟩
  intro y u hu
  rw [narrowed_getElem? hv]
  by_cases hy : y = x
  · subst hy
    obtain rfl : u = v := Option.some_inj.mp (hu.symm.trans hv)
    refine ⟨u.setValues s.level d, by rw [if_pos rfl], by simp, by simp, ?_⟩
    simpa using hd.subset
  · exact ⟨u, by rw [if_neg hy, hu], rfl, rfl, fun _ hw => hw⟩

/-! ### Any number of changes -/

/-- A store that changes may have made of another one. -/
def Shrunk (s s' : Store t) : Prop := Relation.ReflTransGen Shrinks s s'

theorem Shrunk.refl (s : Store t) : s.Shrunk s := Relation.ReflTransGen.refl

theorem Shrunk.trans (h : s.Shrunk s') (h' : s'.Shrunk s'') : s.Shrunk s'' :=
  Relation.ReflTransGen.trans h h'

theorem Shrinks.shrunk (h : s.Shrinks s') : s.Shrunk s' := Relation.ReflTransGen.single h

theorem Shrunk.wellFormed (hs : s.Shrunk s') (h : s.WellFormed) : s'.WellFormed := by
  induction hs with
  | refl => exact h
  | tail _ hstep ih => exact hstep.wellFormed ih

theorem Shrunk.tighter (hs : s.Shrunk s') : s.Tighter s' := by
  induction hs with
  | refl => exact .refl s
  | tail _ hstep ih => exact ih.trans hstep.tighter

theorem Shrunk.restored (hs : s.Shrunk s') (h : s.WellFormed) {low : Nat} (hl : low < s.level) :
    s'.restored low = s.restored low := by
  induction hs with
  | refl => rfl
  | tail hrun hstep ih =>
    have hlevel := (Shrunk.tighter hrun).level
    rw [hstep.restored (Shrunk.wellFormed hrun h) (by omega), ih]

theorem Shrunk.eq_or_cardinality_lt (hs : s.Shrunk s') (h : s.WellFormed) :
    s' = s ∨ s'.cardinality < s.cardinality := by
  induction hs with
  | refl => exact .inl rfl
  | tail hrun hstep ih =>
    have hlt := hstep.cardinality_lt (Shrunk.wellFormed hrun h)
    rcases ih with rfl | ih
    · exact .inr hlt
    · exact .inr (Nat.lt_trans hlt ih)

theorem Shrunk.antisymm (hs : s.Shrunk s') (hs' : s'.Shrunk s) (h : s.WellFormed) : s' = s := by
  rcases hs.eq_or_cardinality_lt h with heq | hlt
  · exact heq
  · rcases hs'.eq_or_cardinality_lt (hs.wellFormed h) with heq | hlt'
    · exact heq.symm
    · omega

theorem narrow_shrunk [t.Lawful] (h : s.WellFormed) (x : VarId) (hn : n.Proper)
    (hroom : ∀ v, s.vars[x]? = some v → n.Room v.values) : (s.narrow x n).Leaves s.Shrunk := by
  cases hv : s.vars[x]? with
  | none =>
    rw [narrow, update_missing hv]
    trivial
  | some v =>
    have hresult := narrow_result h hv hn (hroom v hv)
    generalize s.narrow x n = outcome at hresult
    cases hresult with
    | emptied _ => exact .refl s
    | kept d _ _ => exact .refl s
    | changed d _ hpart => exact (Shrinks.at x v d hv hpart).shrunk
    | refused offset _ => trivial

/-! ### Values -/

def Within (s : Store t) (P : Int → Prop) : Prop := ∀ v ∈ s.vars, ∀ w ∈ v.values, P w

/-- An assignment takes values of the store. -/
def Admits (s : Store t) (σ : VarId → Int) : Prop :=
  ∀ (x : VarId) (v : Variable t), s.vars[x]? = some v → σ x ∈ v.values

theorem forall_getElem? {α : Type} {l : List α} {P : Nat → α → Prop}
    (h : ∀ i : Fin l.length, P i l[i]) (i : Nat) (a : α) (ha : l[i]? = some a) : P i a := by
  obtain ⟨hi, rfl⟩ := List.getElem?_eq_some_iff.mp ha
  exact h ⟨i, hi⟩

theorem Tighter.within {P : Int → Prop} (ht : s.Tighter s') (h : s.Within P) : s'.Within P := by
  intro v' hv' w hw
  obtain ⟨x, hx, rfl⟩ := List.mem_iff_getElem.mp hv'
  have hx' : x < s.vars.length := ht.length ▸ hx
  obtain ⟨u, hu, -, -, hsub⟩ := ht.var x _ (List.getElem?_eq_getElem hx')
  rw [List.getElem?_eq_getElem hx, Option.some_inj] at hu
  exact h _ (List.getElem_mem hx') w (hsub w (hu ▸ hw))

end Store
end FiniteDomains
