import FiniteDomains.Proofs.Store.Waking

/-! Reading the bounds of variables. A reading of bounds succeeds on well formed stores, and it
gives the same on stores that agree on the bounds. -/
namespace FiniteDomains

namespace Store
variable {t : ValueType} {s s' : Store t} {x : VarId} {v : Variable t} {xs ys : List VarId}

/-- The bounds of a variable as they are read and as they are. -/
structure BoundedBy (s : Store t) (x : VarId) (v : Variable t) (r : Interval) : Prop where
  lower : s.lowerBound x = .ok r.lo
  upper : s.upperBound x = .ok r.hi
  bounds : s.bounds x = .ok r
  least : IsLeast {w | w ∈ v.values} r.lo
  greatest : IsGreatest {w | w ∈ v.values} r.hi
  min_eq : v.values.min? = some r.lo
  max_eq : v.values.max? = some r.hi

theorem WellFormed.boundedBy (h : s.WellFormed) (hv : s.vars[x]? = some v) :
    ∃ r, s.BoundedBy x v r := by
  have hfilled := h.current hv
  have hvalid : v.values.Valid := hfilled.valid
  obtain ⟨lo, hi, hlo, hhi⟩ : ∃ m n, v.values.min? = some m ∧ v.values.max? = some n :=
    Domain.exists_ends hfilled.nonempty
  have hleast := Domain.min?_isLeast hvalid.consistent hlo
  have hgreatest := Domain.max?_isGreatest hvalid.consistent hhi
  have hdomain : s.domain x = .ok v.values := by
    simp [domain, var, hv, bind, Except.bind, pure, Except.pure]
  have hlower : s.lowerBound x = .ok lo := by
    simp [lowerBound, hdomain, bind, Except.bind, hlo, Store.bound]
  have hupper : s.upperBound x = .ok hi := by
    simp [upperBound, hdomain, bind, Except.bind, hhi, Store.bound]
  have hle : lo ≤ hi := hgreatest.2 hleast.1
  have hbounds : s.bounds x = .ok ⟨lo, hi⟩ := by
    simp [Store.bounds, hlower, hupper, bind, Except.bind, Interval.make, hle]
  exact ⟨⟨lo, hi⟩, hlower, hupper, hbounds, hleast, hgreatest, hlo, hhi⟩

def Has (s : Store t) (xs : List VarId) : Prop := ∀ x ∈ xs, ∃ v, s.vars[x]? = some v

theorem has_iff : s.Has xs ↔ ∀ x ∈ xs, (s.vars[x]?).isSome = true := by
  simp only [Has, Option.isSome_iff_exists]

instance (s : Store t) (xs : List VarId) : Decidable (s.Has xs) := decidable_of_iff _ has_iff.symm

theorem Tighter.has (h : s.Tighter s') (hx : s.Has xs) : s'.Has xs := by
  intro x hmem
  obtain ⟨v, hv⟩ := hx x hmem
  obtain ⟨v', hv', -⟩ := h.var x v hv
  exact ⟨v', hv'⟩

/-- Two stores agree on the bounds of the given variables. -/
def AlikeOn (xs : List VarId) (s s' : Store t) : Prop :=
  ∀ x ∈ xs, s.lowerBound x = s'.lowerBound x ∧ s.upperBound x = s'.upperBound x

end Store

/-- Readings that look only at the bounds of some variables, and succeed if there are such. -/
structure ReadsBounds {t : ValueType} {α : Type} (xs : List VarId)
    (f : Store t → Except Fault α) : Prop where
  total : ∀ s, s.WellFormed → s.Has xs → ∃ r, f s = .ok r
  alike : ∀ s s', Store.AlikeOn xs s s' → f s = f s'

namespace ReadsBounds
variable {t : ValueType} {α β : Type} {xs : List VarId} {x : VarId}

theorem pure (a : α) : ReadsBounds (t := t) xs fun _ => Pure.pure a :=
  ⟨fun _ _ _ => ⟨a, rfl⟩, fun _ _ _ => rfl⟩

theorem bind {f : Store t → Except Fault α} {g : α → Store t → Except Fault β}
    (hf : ReadsBounds xs f) (hg : ∀ a, ReadsBounds xs (g a)) :
    ReadsBounds xs fun s => f s >>= fun a => g a s := by
  constructor
  · intro s h hx
    obtain ⟨a, ha⟩ := hf.total s h hx
    obtain ⟨b, hb⟩ := (hg a).total s h hx
    exact ⟨b, by simp only [ha]; exact hb⟩
  · intro s s' halike
    have hnext : (fun a => g a s) = fun a => g a s' := funext fun a => (hg a).alike s s' halike
    simp only [hf.alike s s' halike, hnext]

theorem lowerBound (hx : x ∈ xs) : ReadsBounds (t := t) xs fun s => s.lowerBound x := by
  constructor
  · intro s h hxs
    obtain ⟨v, hv⟩ := hxs x hx
    obtain ⟨r, hr⟩ := h.boundedBy hv
    exact ⟨_, hr.lower⟩
  · intro s s' halike
    exact (halike x hx).1

theorem upperBound (hx : x ∈ xs) : ReadsBounds (t := t) xs fun s => s.upperBound x := by
  constructor
  · intro s h hxs
    obtain ⟨v, hv⟩ := hxs x hx
    obtain ⟨r, hr⟩ := h.boundedBy hv
    exact ⟨_, hr.upper⟩
  · intro s s' halike
    exact (halike x hx).2

theorem bounds (hx : x ∈ xs) : ReadsBounds (t := t) xs fun s => s.bounds x := by
  constructor
  · intro s h hxs
    obtain ⟨v, hv⟩ := hxs x hx
    obtain ⟨r, hr⟩ := h.boundedBy hv
    exact ⟨_, hr.bounds⟩
  · intro s s' halike
    obtain ⟨hlo, hhi⟩ := halike x hx
    simp only [Store.bounds, hlo, hhi]

end ReadsBounds
end FiniteDomains
