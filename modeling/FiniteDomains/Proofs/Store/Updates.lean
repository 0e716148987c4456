import FiniteDomains.Proofs.Store.Levels

/-! Changes of one variable of a store keep its levels in order and leave what is kept for the
levels below alone. -/
namespace FiniteDomains.Store
variable {t : ValueType} {α : Type} {s s' : Store t} {x : VarId} {v v' : Variable t}

/-- The store with a changed variable, which is on the trail if it has forked. -/
def replaced (s : Store t) (x : VarId) (v v' : Variable t) : Store t :=
  { s with
    vars := s.vars.set x v'
    trail :=
      if v.stamp < s.level ∧ v'.stamp = s.level then s.trail.modifyHead (x :: ·) else s.trail }

theorem replaced_self (hv : s.vars[x]? = some v) : s.replaced x v v = s := by
  obtain ⟨hx, rfl⟩ := List.getElem?_eq_some_iff.mp hv
  have hstamp : ¬(s.vars[x].stamp < s.level ∧ s.vars[x].stamp = s.level) := by omega
  simp [replaced, hstamp]

theorem replaced_getElem? (hv : s.vars[x]? = some v) (y : VarId) :
    (s.replaced x v v').vars[y]? = if y = x then some v' else s.vars[y]? := by
  obtain ⟨hx, -⟩ := List.getElem?_eq_some_iff.mp hv
  simp only [replaced]
  by_cases hy : y = x
  · subst hy
    simp [hx]
  · rw [if_neg hy, List.getElem?_set_ne (fun he => hy he.symm)]

theorem Layered.replace_eq (h : s.Layered) : s.replace x v v' = .ok (s.replaced x v v') := by
  simp only [replace, replaced]
  split
  · next hf =>
    have hlen := h.trail_length
    cases htrail : s.trail with
    | nil =>
      rw [htrail] at hlen
      simp only [List.length_nil] at hlen
      omega
    | cons forked lower => simp [noteFork]
  · rfl

theorem Layered.update_eq (h : s.Layered) (hv : s.vars[x]? = some v)
    (change : Variable t → Nat → Outcome (Variable t) α) :
    s.update x change = (change v s.level).mapState (s.replaced x v) := by
  simp only [update, hv, Outcome.resume, Outcome.mapState]
  split
  · simp only [h.replace_eq]
  · simp only [h.replace_eq]
  · rfl

theorem update_missing (hv : s.vars[x]? = none)
    (change : Variable t → Nat → Outcome (Variable t) α) :
    s.update x change = .fault .noSuchEntry := by
  simp only [update, hv]

theorem forkedAt_replaced (h : s.Layered) {l : Nat} (hpos : 0 < l) (hl : l ≤ s.level) :
    (s.replaced x v v').forkedAt l =
      if v.stamp < s.level ∧ v'.stamp = s.level ∧ l = s.level then x :: s.forkedAt l
      else s.forkedAt l := by
  have hlen := h.trail_length
  simp only [forkedAt, replaced]
  by_cases hf : v.stamp < s.level ∧ v'.stamp = s.level
  · rw [if_pos hf]
    by_cases htop : l = s.level
    · rw [if_pos ⟨hf.1, hf.2, htop⟩, htop, Nat.sub_self, List.getElem?_modifyHead_zero,
        List.getElem?_eq_getElem (by omega)]
      rfl
    · have hsucc : s.level - l = s.level - l - 1 + 1 := by omega
      rw [if_neg (by omega), hsucc, List.getElem?_modifyHead_succ]
  · rw [if_neg hf, if_neg (by omega)]

theorem stampsOf_replaced (hv : s.vars[x]? = some v) (y : VarId) :
    (s.replaced x v v').stampsOf y = if y = x then v'.stamps else s.stampsOf y := by
  simp only [stampsOf, replaced_getElem? hv]
  split <;> rfl

theorem Layered.replaced (h : s.Layered) (hv : s.vars[x]? = some v)
    (hc : v.Changed s.level v') : (s.replaced x v v').Layered where
  trail_length := by
    have hlen := h.trail_length
    simp only [Store.replaced]
    split
    · rwa [List.length_modifyHead]
    · exact hlen
  ordered := by
    intro w hw
    rcases List.mem_or_eq_of_mem_set hw with hw | rfl
    · exact h.ordered w hw
    · exact hc.ordered (h.ordered v (List.mem_of_getElem? hv))
  stamp_le := by
    intro w hw
    rcases List.mem_or_eq_of_mem_set hw with hw | rfl
    · exact h.stamp_le w hw
    · exact hc.stamp_le (h.stamp_le v (List.mem_of_getElem? hv))
  trail_exact := by
    intro l y hpos hl
    have hbefore := h.trail_exact l y hpos hl
    rw [forkedAt_replaced h hpos hl, stampsOf_replaced hv]
    by_cases hy : y = x
    · subst hy
      rw [stampsOf_eq hv] at hbefore
      rw [if_pos rfl, hc.count_stamps l, ← hbefore]
      split
      · rw [List.count_cons_self]
      · rfl
    · rw [if_neg hy]
      split
      · rw [List.count_cons_of_ne (fun he => hy he.symm), hbefore]
      · exact hbefore

theorem Layered.restored_replaced (h : s.Layered) (hv : s.vars[x]? = some v)
    (hc : v.Changed s.level v') {low : Nat} (hl : low < s.level) :
    (s.replaced x v v').restored low = s.restored low := by
  obtain ⟨hx, rfl⟩ := List.getElem?_eq_some_iff.mp hv
  have hback := hc.backTo (h.ordered _ (List.getElem_mem hx)) hl
  have hvars : (s.replaced x s.vars[x] v').vars.map (fun v => v.backTo low)
      = s.vars.map fun v => v.backTo low := by
    simp only [Store.replaced]
    rw [List.map_set, hback]
    apply List.ext_getElem?
    intro y
    by_cases hy : x = y
    · subst hy
      simp [hx]
    · rw [List.getElem?_set_ne hy]
  have htrail : (s.replaced x s.vars[x] v').trail.drop
      ((s.replaced x s.vars[x] v').level - low) = s.trail.drop (s.level - low) := by
    simp only [Store.replaced]
    split
    · rw [List.drop_modifyHead_of_pos (by omega)]
    · rfl
  simp only [Store.restored, hvars, htrail]
  rfl

/-! ### The queue and the levels -/

theorem Layered.withWoken (h : s.Layered) (q : WakeQueue) :
    ({ s with woken := q } : Store t).Layered :=
  ⟨h.trail_length, h.ordered, h.stamp_le, h.trail_exact⟩

theorem wake_eq (s : Store t) (x : VarId) (change : Change) :
    ∃ q, s.wake x change = { s with woken := q } := by
  simp only [wake]
  split
  · exact ⟨_, rfl⟩
  · exact ⟨s.woken, rfl⟩

theorem Layered.pushLevel (h : s.Layered) : s.pushLevel.Layered where
  trail_length := by simp [Store.pushLevel, h.trail_length]
  ordered := h.ordered
  stamp_le := fun v hv => Nat.le_succ_of_le (h.stamp_le v hv)
  trail_exact := by
    intro l x hpos hl
    simp only [Store.pushLevel] at hl
    by_cases htop : l = s.level + 1
    · subst htop
      have hnone : s.level + 1 ∉ s.stampsOf x := by
        cases hv : s.vars[x]? with
        | none => simp [stampsOf_nil hv]
        | some v =>
          intro hmem
          have hmem' : s.level + 1 ∈ v.stamps := by rwa [stampsOf_eq hv] at hmem
          have hv' := List.mem_of_getElem? hv
          have hle := (h.ordered v hv').stamp_le hmem'
          have hlevel := h.stamp_le v hv'
          omega
      have hforked : s.pushLevel.forkedAt (s.level + 1) = [] := by
        simp [forkedAt, Store.pushLevel]
      rw [hforked]
      exact (List.count_eq_zero_of_not_mem hnone).symm
    · have hsucc : s.level + 1 - l = s.level - l + 1 := by omega
      have hforked : s.pushLevel.forkedAt l = s.forkedAt l := by
        simp only [forkedAt, Store.pushLevel, hsucc, List.getElem?_cons_succ]
      rw [hforked]
      exact h.trail_exact l x hpos (by omega)

theorem restored_pushLevel {low : Nat} (hl : low ≤ s.level) :
    s.pushLevel.restored low = s.restored low := by
  have hsucc : s.level + 1 - low = s.level - low + 1 := by omega
  simp only [restored, pushLevel, hsucc, List.drop_succ_cons]

theorem popWoken_eq (s : Store t) : ∃ q, s.popWoken.2 = { s with woken := q } := by
  simp only [popWoken]
  split
  · exact ⟨_, rfl⟩
  · exact ⟨s.woken, rfl⟩

/-! ### New variables -/

theorem addVariable_ok {d : Domain t} (h : s.addVariable d = .ok (x, s')) :
    s.level = 0 ∧ ∃ v, Variable.make s.vars.length d = .ok v ∧ x = s.vars.length ∧
      s' = { s with vars := s.vars ++ [v] } := by
  simp only [addVariable] at h
  split at h
  · next hl =>
    split at h
    · next v hv =>
      cases h
      exact ⟨hl, v, hv, rfl, rfl⟩
    · cases h
  · cases h

theorem addRange_ok {lo hi : Int} (h : s.addRange lo hi = .ok (x, s')) :
    lo ≤ hi ∧ ∃ d, s.options.representation.domain lo hi = .ok d ∧
      s.addVariable d = .ok (x, s') := by
  simp only [addRange] at h
  split at h
  · cases h
  · next hle =>
    split at h
    · next d hd => exact ⟨by omega, d, hd, h⟩
    · cases h

theorem addNamedRange_ok {lo hi : Int} {name : String}
    (h : s.addNamedRange lo hi name = .ok (x, s')) :
    ∃ s₁, s.addRange lo hi = .ok (x, s₁) ∧ s' = { s₁ with names := s₁.names.add x name } := by
  simp only [addNamedRange] at h
  split at h
  · next y s₁ hr =>
    cases h
    exact ⟨s₁, hr, rfl⟩
  · cases h

theorem adding_ok {r : Except Fault (VarId × Store t)} {reply : StoreReply}
    (h : adding r = .ok (reply, s')) : ∃ x, reply = .added x ∧ r = .ok (x, s') := by
  cases r with
  | ok r =>
    cases h
    exact ⟨r.1, rfl, rfl⟩
  | error => cases h

theorem Layered.added (h : s.Layered) (hl : s.level = 0) {d : Domain t}
    (hv : Variable.make s.vars.length d = .ok v) :
    ({ s with vars := s.vars ++ [v] } : Store t).Layered where
  trail_length := h.trail_length
  ordered := by
    obtain ⟨hc, ho⟩ := Variable.make_versions hv
    intro w hw
    rcases List.mem_append.mp hw with hw | hw
    · exact h.ordered w hw
    · obtain rfl := List.mem_singleton.mp hw
      simp [Variable.Ordered, Variable.Chained, Variable.stamp, hc, ho]
  stamp_le := by
    obtain ⟨hc, -⟩ := Variable.make_versions hv
    intro w hw
    rcases List.mem_append.mp hw with hw | hw
    · exact h.stamp_le w hw
    · obtain rfl := List.mem_singleton.mp hw
      simp [Variable.stamp, hc]
  trail_exact := by
    intro l y hpos hle
    have hle' : l ≤ s.level := hle
    omega

end FiniteDomains.Store
