import FiniteDomains.Proofs.Domain.Algebra
import FiniteDomains.Proofs.Variable.Refinement

/-! What a variable has lost. The values that are missing from one version to the next are apart
from all that is lost before and after, and with the current values they make up those of the
root. -/
namespace FiniteDomains
variable {t : ValueType}

namespace Domain
variable {d e lost whole : Domain t} {parts : List (Domain t)}

def Apart (d e : Domain t) : Prop := ∀ w ∈ d, w ∉ e

/-- Domains that have no values in common make up a domain. -/
structure MadeUp (whole : Domain t) (parts : List (Domain t)) : Prop where
  apart : parts.Pairwise Apart
  mem : ∀ w, w ∈ whole ↔ ∃ part ∈ parts, w ∈ part

theorem madeUp_self (d : Domain t) : d.MadeUp [d] := ⟨List.pairwise_singleton _ _, by simp⟩

theorem MadeUp.split (h : whole.MadeUp (d :: parts)) (hsub : ∀ w ∈ e, w ∈ d)
    (hlost : ∀ w, w ∈ lost ↔ w ∈ d ∧ w ∉ e) : whole.MadeUp (e :: lost :: parts) := by
  obtain ⟨hfirst, hrest⟩ := List.pairwise_cons.mp h.apart
  refine ⟨List.pairwise_cons.mpr ⟨List.forall_mem_cons.mpr ⟨?_, ?_⟩, List.pairwise_cons.mpr
    ⟨?_, hrest⟩⟩, fun w => ?_⟩
  · exact fun w hw hw' => ((hlost w).mp hw').2 hw
  · exact fun part hpart w hw => hfirst part hpart w (hsub w hw)
  · exact fun part hpart w hw => hfirst part hpart w ((hlost w).mp hw).1
  · have hparts : w ∈ d ↔ w ∈ e ∨ w ∈ lost := by
      rw [hlost]
      have := hsub w
      tauto
    rw [h.mem, List.exists_mem_cons_iff, List.exists_mem_cons_iff, List.exists_mem_cons_iff, hparts,
      or_assoc]

end Domain

namespace Variable
variable {v : Variable t} {level : Nat} {w : Int}

/-- What was lost from each version to the next one, the latest first. -/
def losses (v : Variable t) : List (Domain t) :=
  List.zipWith (fun later earlier => earlier.values.diff later.values) v.versions v.older

def root (v : Variable t) : Version t := v.older.getLastD v.current

theorem losses_cons (id : VarId) (later earlier : Version t) (older : List (Version t)) :
    losses ⟨id, later, earlier :: older⟩ =
      earlier.values.diff later.values :: losses ⟨id, earlier, older⟩ := rfl

theorem root_cons (id : VarId) (later earlier : Version t) (older : List (Version t)) :
    root ⟨id, later, earlier :: older⟩ = root ⟨id, earlier, older⟩ := by
  simp only [root, List.getLastD_cons]

variable [t.Lawful]

/-- Each version loses values of the one before it, so the losses split what the root has. -/
theorem madeUp_losses (hfilled : ∀ u ∈ v.versions, u.Filled) (hnested : v.Nested) :
    v.root.values.MadeUp (v.values :: v.losses) := by
  obtain ⟨id, current, older⟩ := v
  induction older generalizing current with
  | nil => exact Domain.madeUp_self _
  | cons earlier older ih =>
    have hfilled := (List.forall_mem_cons.mp hfilled).2
    obtain ⟨hsub, hnested⟩ := List.pairwise_cons.mp hnested
    have hearlier := (List.forall_mem_cons.mp hfilled).1
    rw [losses_cons, root_cons]
    exact (ih earlier hfilled hnested).split (hsub earlier List.mem_cons_self)
      (hearlier.valid.diff_selects current.values).mem

theorem mem_lostSince (hordered : v.Ordered) (hfilled : ∀ u ∈ v.versions, u.Filled)
    (hs : v.stamp ≤ level + 1) :
    w ∈ v.lostSince (level + 1) ↔ w ∈ (v.backTo level).values ∧ w ∉ v.values := by
  obtain ⟨id, current, older⟩ := v
  have hnone (u : Domain t) : w ∈ u.cleared ↔ w ∈ u ∧ w ∉ u :=
    iff_of_false (Domain.not_mem_cleared u w) (and_not_self)
  cases older with
  | nil => exact hnone current.values
  | cons previous older =>
    have hprevious := hfilled previous (List.mem_cons_of_mem _ List.mem_cons_self)
    have hstamp : previous.stamp < current.stamp := hordered.1
    have hlost : lostSince ⟨id, current, previous :: older⟩ (level + 1) =
        if level + 1 ≤ current.stamp then previous.values.diff current.values
        else current.values.cleared := rfl
    have hback : backTo ⟨id, current, previous :: older⟩ level =
        restore id level current (previous :: older) := rfl
    simp only [stamp] at hs
    rw [hlost, hback]
    by_cases hle : level + 1 ≤ current.stamp
    · rw [if_pos hle, restore_of_lt (by omega), restore_of_le older (by omega)]
      exact (hprevious.valid.diff_selects current.values).mem w
    · rw [if_neg hle, restore_of_le _ (by omega)]
      exact hnone current.values

end Variable
end FiniteDomains
