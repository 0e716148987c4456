import FiniteDomains.Proofs.Propagator.Readings

/-! The values in a store. A narrowing that succeeds leaves its variable the values that it keeps,
and on a store with values of the universe only it changes nothing exactly if it keeps them all. -/
namespace FiniteDomains.Store
variable {t : ValueType} {s s' s'' : Store t} {x y : VarId} {v : Variable t} {n : Narrowing t}
variable {d : Domain t} {xs : List VarId} {w : Int}

/-- A well formed store with values of the universe only. -/
structure Regular (s : Store t) : Prop extends s.WellFormed where
  admissible : s.Within t.Admissible

theorem Regular.inUniverse (h : s.Regular) (hv : s.vars[x]? = some v) : v.values.InUniverse :=
  h.admissible v (List.mem_of_getElem? hv)

theorem Regular.negatable [t.Lawful] (h : s.Regular) : s.Within t.Negatable :=
  fun v hv w hw => (h.admissible v hv w hw).negatable

theorem regular_root [t.Lawful] (hlevel : s.level = 0) (htrail : s.trail = [])
    (hvars : ∀ v ∈ s.vars, v.older = [] ∧ v.stamp = 0 ∧ v.values.Consistent ∧
      v.values.isEmpty = false) (hadm : s.Within t.Admissible) : s.Regular := by
  refine ⟨⟨layered_root hlevel htrail fun v hv => ?_, fun v hv w hw => ?_⟩, hadm⟩
  · exact ⟨(hvars v hv).1, (hvars v hv).2.1⟩
  · obtain ⟨holder, -, hconsistent, hnonempty⟩ := hvars v hv
    rw [Variable.versions, holder, List.mem_singleton] at hw
    subst hw
    exact ⟨⟨hconsistent, fun a ha => (hadm v hv a ha).fits⟩, hnonempty⟩

theorem Shrunk.regular (hs : s.Shrunk s') (h : s.Regular) : s'.Regular :=
  ⟨hs.wellFormed h.toWellFormed, hs.tighter.within h.admissible⟩

def HasValue (s : Store t) (x : VarId) (w : Int) : Prop :=
  ∃ v, s.vars[x]? = some v ∧ w ∈ v.values

/-- The variables of one store have no values that those of another one do not have. -/
structure Below (s s' : Store t) : Prop where
  length : s.vars.length = s'.vars.length
  subset : ∀ x w, s.HasValue x w → s'.HasValue x w

theorem hasValue_iff (hv : s.vars[x]? = some v) : s.HasValue x w ↔ w ∈ v.values := by
  simp [HasValue, hv]

theorem Below.refl (s : Store t) : s.Below s := ⟨rfl, fun _ _ => id⟩

theorem Below.trans (h : s.Below s') (h' : s'.Below s'') : s.Below s'' :=
  ⟨h.length.trans h'.length, fun x w hw => h'.subset x w (h.subset x w hw)⟩

theorem exists_var_of_length (h : s.vars.length = s'.vars.length) (hv : s.vars[x]? = some v) :
    ∃ v', s'.vars[x]? = some v' := by
  obtain ⟨hlt, -⟩ := List.getElem?_eq_some_iff.mp hv
  exact ⟨_, List.getElem?_eq_getElem (h ▸ hlt)⟩

theorem Below.has (h : s.Below s') (hx : s'.Has xs) : s.Has xs := by
  intro x hmem
  obtain ⟨v, hv⟩ := hx x hmem
  exact exists_var_of_length h.length.symm hv

theorem Tighter.below (h : s.Tighter s') : s'.Below s := by
  refine ⟨h.length, ?_⟩
  rintro x w ⟨v', hv', hw⟩
  obtain ⟨v, hv⟩ := exists_var_of_length h.length hv'
  obtain ⟨u, hu, -, -, hsub⟩ := h.var x v hv
  obtain rfl : u = v' := Option.some_inj.mp (hu.symm.trans hv')
  exact ⟨v, hv, hsub w hw⟩

theorem WellFormed.exists_value (h : s.WellFormed) (hv : s.vars[x]? = some v) :
    ∃ w, s.HasValue x w := by
  obtain ⟨r, hr⟩ := h.boundedBy hv
  exact ⟨r.lo, v, hv, hr.least.1⟩

/-! ### Narrowing -/

variable [t.Lawful]

theorem Regular.room (h : s.Regular) (x : VarId) (n : Narrowing t) (v : Variable t)
    (hv : s.vars[x]? = some v) : n.Room v.values :=
  n.room_of_inUniverse (h.inUniverse hv)

theorem WellFormed.narrow_ends (h : s.WellFormed) (hv : s.vars[x]? = some v) (hn : n.Accepted) :
    (s.narrow x n).Ends (fun s' _ => s.Shrunk s') fun s' =>
      s' = s ∧ ∀ w ∈ v.values, ¬n.Keeps w := by
  have hresult := narrow_result h hv hn.proper (hn.room v.values)
  generalize s.narrow x n = outcome at hresult
  cases hresult with
  | emptied hnone => exact ⟨rfl, hnone⟩
  | kept d _ _ => exact .refl s
  | changed d _ hpart => exact (Shrinks.at x v d hv hpart).shrunk
  | refused offset href => exact absurd href (hn.not_refused offset)

theorem WellFormed.narrow_shrunk_ends (h : s.WellFormed) (hv : s.vars[x]? = some v)
    (hn : n.Accepted) : (s.narrow x n).Ends (fun s' _ => s.Shrunk s') s.Shrunk :=
  (h.narrow_ends hv hn).imp (fun _ _ => id) fun _ hs => hs.1 ▸ .refl s

theorem WellFormed.narrow_succeeds (h : s.WellFormed) (hv : s.vars[x]? = some v) (hn : n.Accepted)
    (hw : w ∈ v.values) (hkeeps : n.Keeps w) :
    ∃ s' change, s.narrow x n = .done s' change ∧ s.Shrunk s' := by
  have hends := h.narrow_ends hv hn
  cases hout : s.narrow x n with
  | done s' change => exact ⟨s', change, rfl, hends.done hout⟩
  | emptied s' => exact absurd hkeeps ((hends.emptied hout).2 w hw)
  | fault cause => exact absurd hout (hends.ne_fault cause)

theorem narrow_of_keeps (h : s.WellFormed) (hv : s.vars[x]? = some v)
    (hn : n.Accepted) (hall : ∀ w ∈ v.values, n.Keeps w) :
    s.narrow x n = .done s .unchanged := by
  have hresult := narrow_result h hv hn.proper (hn.room v.values)
  generalize s.narrow x n = outcome at hresult
  cases hresult with
  | emptied hnone =>
    obtain ⟨r, hr⟩ := h.boundedBy hv
    exact absurd (hall r.lo hr.least.1) (hnone r.lo hr.least.1)
  | kept d _ _ => rfl
  | changed d hd hpart =>
    have hvalid : v.values.Valid := (h.current hv).valid
    have heq := Domain.eq_of_mem_iff hd.valid.consistent hvalid.consistent hd.isSparse
      fun w => ⟨fun hw => ((hd.mem w).mp hw).1, fun hw => (hd.mem w).mpr ⟨hw, hall w hw⟩⟩
    exact absurd (congrArg Domain.size heq) hpart.size_ne
  | refused offset href => exact absurd href (hn.not_refused offset)

theorem Regular.keeps_of_kept (h : s.Regular) (hv : s.vars[x]? = some v)
    (hd : v.Narrowed n d) (hsize : d.size = v.values.size) : ∀ w ∈ v.values, n.Keeps w := by
  intro w hw
  have hvalid : v.values.Valid := (h.current hv).valid
  have hsub : ∀ u ∈ d, u ∈ v.values := fun u hu => ((hd.mem u).mp hu).1
  have hmem := (h.inUniverse hv).mem_of_size hd.valid.consistent hvalid.consistent hsub hsize
  exact ((hd.mem w).mp (hmem w hw)).2

theorem Regular.narrow_self_iff (h : s.Regular) (hv : s.vars[x]? = some v)
    (hn : n.Accepted) {change : Change} :
    s.narrow x n = .done s change ↔ change = .unchanged ∧ ∀ w ∈ v.values, n.Keeps w := by
  constructor
  · intro hout
    rcases narrow_done h.toWellFormed hv hn.proper (hn.room v.values) hout with
      ⟨d, hd, hsize, -, rfl⟩ | ⟨d, hd, hpart, heq, -⟩
    · exact ⟨rfl, h.keeps_of_kept hv hd hsize⟩
    · have hlt := (Shrinks.at x v d hv hpart).cardinality_lt h.toWellFormed
      rw [← heq] at hlt
      exact absurd hlt (Nat.lt_irrefl _)
  · rintro ⟨rfl, hall⟩
    exact narrow_of_keeps h.toWellFormed hv hn hall

theorem Regular.narrow_values (h : s.Regular) (hv : s.vars[x]? = some v) (hn : n.Proper)
    {change : Change} (hout : s.narrow x n = .done s' change) (y : VarId) (w : Int) :
    s'.HasValue y w ↔ s.HasValue y w ∧ (y = x → n.Keeps w) := by
  rcases narrow_done h.toWellFormed hv hn (h.room x n v hv) hout with
    ⟨d, hd, hsize, rfl, -⟩ | ⟨d, hd, -, rfl, -⟩
  · have hall := h.keeps_of_kept hv hd hsize
    refine ⟨fun hw => ⟨hw, ?_⟩, fun hw => hw.1⟩
    rintro rfl
    exact hall w ((hasValue_iff hv).mp hw)
  · by_cases hy : y = x
    · subst hy
      have hv' : (s.narrowed y v d).vars[y]? = some (v.setValues s.level d) := by
        rw [narrowed_getElem? hv, if_pos rfl]
      rw [hasValue_iff hv', hasValue_iff hv, Variable.setValues_values, hd.mem]
      simp
    · have hsame : (s.narrowed x v d).vars[y]? = s.vars[y]? := by
        rw [narrowed_getElem? hv, if_neg hy]
      simp [HasValue, hsame, hy]

end FiniteDomains.Store
