import FiniteDomains.Proofs.Store.Requests
import FiniteDomains.Proofs.Variable.Versions
import Mathlib.Tactic.ByContra

/-! The levels of a store: the trail names a variable at a level as often as it has a version of
that level, so the variables on the trail are all that have to go back. -/
namespace FiniteDomains.Store
variable {t : ValueType} {α : Type} {s s' : Store t}

/-- The variables on the trail of a level. -/
def forkedAt (s : Store t) (level : Nat) : List VarId := (s.trail[s.level - level]?).getD []

/-- The stamps of the versions of a variable, none if there is no such variable. -/
def stampsOf (s : Store t) (x : VarId) : List Nat := (s.vars[x]?).elim [] Variable.stamps

/-- The versions of all variables are in order and the trail names them level by level. -/
structure Layered (s : Store t) : Prop where
  trail_length : s.trail.length = s.level
  ordered : ∀ v ∈ s.vars, v.Ordered
  stamp_le : ∀ v ∈ s.vars, v.stamp ≤ s.level
  trail_exact : ∀ level x, 0 < level → level ≤ s.level →
    (s.forkedAt level).count x = (s.stampsOf x).count level

theorem stampsOf_eq {x : VarId} {v : Variable t} (h : s.vars[x]? = some v) :
    s.stampsOf x = v.stamps := by
  simp [stampsOf, h]

theorem stampsOf_nil {x : VarId} (h : s.vars[x]? = none) : s.stampsOf x = [] := by
  simp [stampsOf, h]

theorem layered_root (hlevel : s.level = 0) (htrail : s.trail = [])
    (hvars : ∀ v ∈ s.vars, v.older = [] ∧ v.stamp = 0) : s.Layered where
  trail_length := by rw [htrail, hlevel, List.length_nil]
  ordered := by
    intro v hv
    obtain ⟨holder, hstamp⟩ := hvars v hv
    rw [Variable.Ordered, holder, hstamp, Variable.Chained]
  stamp_le := fun v hv => Nat.le_of_eq ((hvars v hv).2.trans hlevel.symm)
  trail_exact := by
    intro level x hpos hle
    omega

theorem Layered.trail_getElem? (h : s.Layered) {level : Nat} (hpos : 0 < level)
    (hle : level ≤ s.level) : s.trail[s.level - level]? = some (s.forkedAt level) := by
  have hlen := h.trail_length
  have hlt : s.level - level < s.trail.length := by omega
  rw [forkedAt, List.getElem?_eq_getElem hlt, Option.getD_some]

theorem layered_empty (options : StoreOptions) : (empty options : Store t).Layered :=
  layered_root rfl rfl (by simp [empty])

/-! ### Going back -/

def restored (s : Store t) (level : Nat) : Store t :=
  { s with
    vars := s.vars.map fun v => v.backTo level
    level := level
    trail := s.trail.drop (s.level - level)
    woken := .empty }

theorem restore_getElem? (level : Nat) {xs : List VarId} {vars : List (Variable t)}
    (h : ∀ x ∈ xs, x < vars.length) :
    ∃ after, restore level xs vars = .ok after ∧
      ∀ x : VarId, after[x]? = (vars[x]?).map fun v => if x ∈ xs then v.backTo level else v := by
  induction xs generalizing vars with
  | nil => exact ⟨vars, rfl, by simp⟩
  | cons y ys ih =>
    have hy : y < vars.length := h y List.mem_cons_self
    have hys : ∀ x ∈ ys, x < (vars.set y (vars[y].backTo level)).length := by
      intro x hx
      rw [List.length_set]
      exact h x (List.mem_cons_of_mem _ hx)
    obtain ⟨after, hok, hget⟩ := ih hys
    refine ⟨after, by rw [restore, List.getElem?_eq_getElem hy]; exact hok, ?_⟩
    intro x
    rw [hget, List.getElem?_set]
    by_cases hxy : y = x
    · subst hxy
      have htwice := Variable.backTo_backTo (Nat.le_refl level) vars[y]
      simp [hy, htwice]
    · have hyx : x ≠ y := fun he => hxy he.symm
      simp [hxy, hyx]

theorem mem_trail_take {left : Nat} {x : VarId}
    (h : x ∈ (s.trail.take left).flatten) :
    ∃ i, i < left ∧ x ∈ (s.trail[i]?).getD [] := by
  obtain ⟨forked, hf, hx⟩ := List.mem_flatten.mp h
  obtain ⟨i, hi, rfl⟩ := List.mem_iff_getElem.mp hf
  simp only [List.length_take] at hi
  refine ⟨i, by omega, ?_⟩
  rw [List.getElem?_eq_getElem (by omega)]
  simpa using hx

theorem Layered.mem_forkedAt (h : s.Layered) {level : Nat} {x : VarId} (hpos : 0 < level)
    (hle : level ≤ s.level) : x ∈ s.forkedAt level ↔ level ∈ s.stampsOf x := by
  rw [← List.count_pos_iff, ← List.count_pos_iff, h.trail_exact level x hpos hle]

theorem Layered.trail_valid (h : s.Layered) {i : Nat} {x : VarId} (hi : i < s.level)
    (hx : x ∈ (s.trail[i]?).getD []) : x < s.vars.length := by
  have hforked : x ∈ s.forkedAt (s.level - i) := by
    have hsub : s.level - (s.level - i) = i := by omega
    rwa [forkedAt, hsub]
  have hstamps := (h.mem_forkedAt (by omega) (by omega)).mp hforked
  by_contra hlen
  rw [stampsOf_nil (List.getElem?_eq_none (Nat.le_of_not_lt hlen))] at hstamps
  cases hstamps

theorem Layered.mem_trail_take (h : s.Layered) {level : Nat} {x : VarId} {v : Variable t}
    (hv : s.vars[x]? = some v) (hl : level < v.stamp) :
    x ∈ (s.trail.take (s.level - level)).flatten := by
  have hle : v.stamp ≤ s.level := h.stamp_le v (List.mem_of_getElem? hv)
  have hmem : x ∈ s.forkedAt v.stamp := by
    rw [h.mem_forkedAt (by omega) hle, stampsOf_eq hv]
    exact List.mem_cons_self
  have hlen := h.trail_length
  rw [forkedAt, List.getElem?_eq_getElem (by omega), Option.getD_some] at hmem
  apply List.mem_flatten.mpr
  refine ⟨s.trail[s.level - v.stamp], ?_, hmem⟩
  apply List.mem_take_iff_getElem.mpr
  exact ⟨s.level - v.stamp, by omega, rfl⟩

/-- Going back visits the variables on the trail only, which is as good as visiting all. -/
theorem Layered.backtrack_eq (h : s.Layered) {level : Nat} (hl : level ≤ s.level) :
    s.backtrack level = .ok (s.restored level) := by
  have hvalid : ∀ x ∈ (s.trail.take (s.level - level)).flatten, x < s.vars.length := by
    intro x hx
    obtain ⟨i, hi, hx⟩ := Store.mem_trail_take hx
    exact h.trail_valid (by omega) hx
  obtain ⟨after, hok, hget⟩ := restore_getElem? level hvalid
  have hafter : after = s.vars.map fun v => v.backTo level := by
    apply List.ext_getElem?
    intro x
    rw [hget, List.getElem?_map]
    cases hv : s.vars[x]? with
    | none => rfl
    | some v =>
      simp only [Option.map_some, Option.some.injEq]
      split
      · rfl
      · next hout =>
        -- off the trail there is no version above the level, so the variable is back already
        have hle : v.stamp ≤ level := by
          by_contra hlt
          exact hout (h.mem_trail_take hv (by omega))
        exact (Variable.backTo_of_le hle).symm
  rw [backtrack, if_neg (by omega)]
  simp only [hok, hafter]
  rfl

theorem backtrack_above {level : Nat} (hl : s.level < level) :
    s.backtrack level = .error (.backtrackUp s.level level) := by
  rw [backtrack, if_pos hl]

theorem backtrack_ok_iff (h : s.Layered) {level : Nat} :
    s.backtrack level = .ok s' ↔ level ≤ s.level ∧ s' = s.restored level := by
  by_cases hl : level ≤ s.level
  · rw [h.backtrack_eq hl]
    constructor
    · intro he
      cases he
      exact ⟨hl, rfl⟩
    · rintro ⟨-, rfl⟩
      rfl
  · rw [backtrack_above (by omega)]
    simp [hl]

theorem stampsOf_restored (x : VarId) {l level : Nat} (hl : l ≤ level) :
    ((s.restored level).stampsOf x).count l = (s.stampsOf x).count l := by
  simp only [stampsOf, restored, List.getElem?_map]
  cases s.vars[x]? with
  | none => rfl
  | some v => exact Variable.count_stamps_backTo hl v

theorem Layered.restored (h : s.Layered) {level : Nat} (hl : level ≤ s.level) :
    (s.restored level).Layered where
  trail_length := by
    have hlen := h.trail_length
    simp only [Store.restored, List.length_drop]
    omega
  ordered := by
    intro v hv
    obtain ⟨w, hw, rfl⟩ := List.mem_map.mp hv
    exact (Variable.backTo_ordered (h.ordered w hw)).1
  stamp_le := by
    intro v hv
    obtain ⟨w, hw, rfl⟩ := List.mem_map.mp hv
    exact (Variable.backTo_ordered (h.ordered w hw)).2
  trail_exact := by
    intro l x hpos hle
    simp only [Store.restored] at hle
    rw [stampsOf_restored x hle, ← h.trail_exact l x hpos (by omega)]
    have hadd : s.level - level + (level - l) = s.level - l := by omega
    simp only [forkedAt, Store.restored, List.getElem?_drop, hadd]

theorem restored_restored {low high : Nat} (hlow : low ≤ high) (hhigh : high ≤ s.level) :
    (s.restored high).restored low = s.restored low := by
  have hadd : s.level - high + (high - low) = s.level - low := by omega
  simp only [restored, List.map_map, List.drop_drop, hadd]
  congr 1
  apply List.map_congr_left
  intro v _
  exact Variable.backTo_backTo hlow v

theorem Layered.restored_self (h : s.Layered) :
    s.restored s.level = { s with woken := .empty } := by
  have hvars : s.vars.map (fun v => v.backTo s.level) = s.vars.map id := by
    apply List.map_congr_left
    intro v hv
    exact Variable.backTo_of_le (h.stamp_le v hv)
  rw [List.map_id] at hvars
  simp [Store.restored, hvars]

end FiniteDomains.Store
