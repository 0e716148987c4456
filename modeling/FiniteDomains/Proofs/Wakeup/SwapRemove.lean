import FiniteDomains.Wakeup.SwapRemove
import Mathlib.Data.List.Basic

/-! What becomes of a list in which two entries change places, or one is removed for the last one:
apart from the order it is what it was, less the removed entry. -/
namespace FiniteDomains
variable {α : Type} {entries : List α} {a b : α} {position : Nat}

theorem exists_split (h : entries[position]? = some a) :
    ∃ before behind, entries = before ++ a :: behind ∧ before.length = position := by
  obtain ⟨hlt, rfl⟩ := List.getElem?_eq_some_iff.mp h
  refine ⟨entries.take position, entries.drop (position + 1), ?_, ?_⟩
  · rw [← List.drop_eq_getElem_cons hlt, List.take_append_drop]
  · rw [List.length_take, Nat.min_eq_left (Nat.le_of_lt hlt)]

/-! ### Changing places -/

theorem swapAt_self (entries : List α) (position : Nat) :
    swapAt entries position position = entries := by
  simp only [swapAt]
  split
  · next x y hx hy =>
    obtain rfl : x = y := Option.some_inj.mp (hx.symm.trans hy)
    obtain ⟨hlt, rfl⟩ := List.getElem?_eq_some_iff.mp hx
    simp
  · rfl

theorem swapAt_append (before between behind : List α) (a b : α) :
    swapAt (before ++ a :: (between ++ b :: behind)) before.length
        (before.length + (between.length + 1)) =
      before ++ b :: (between ++ a :: behind) := by
  simp [swapAt]

/-! ### Removal -/

theorem swapRemove_last (before : List α) (a : α) :
    swapRemove (before ++ [a]) before.length = before := by
  simp [swapRemove]

theorem swapRemove_append (before between : List α) (a last : α) :
    swapRemove (before ++ a :: (between ++ [last])) before.length = before ++ last :: between := by
  have hlist : before ++ a :: (between ++ [last]) = (before ++ a :: between) ++ [last] := by simp
  have hlen : before.length < (before ++ a :: between).length := by simp
  simp only [swapRemove, hlist, List.getLast?_concat]
  rw [List.set_append_left _ _ hlen, List.dropLast_concat]
  simp

theorem swapRemove_perm (h : entries[position]? = some a) :
    (a :: swapRemove entries position).Perm entries := by
  obtain ⟨before, behind, rfl, rfl⟩ := exists_split h
  rcases List.eq_nil_or_concat behind with rfl | ⟨between, last, rfl⟩
  · rw [swapRemove_last]
    exact (List.perm_append_singleton a before).symm
  · rw [List.concat_eq_append, swapRemove_append]
    have hmoved : (last :: between).Perm (between ++ [last]) :=
      (List.perm_append_singleton last between).symm
    exact List.perm_middle.symm.trans ((hmoved.cons a).append_left before)

theorem nodup_swapRemove (hnodup : entries.Nodup) (h : entries[position]? = some a) :
    (swapRemove entries position).Nodup :=
  (((swapRemove_perm h).nodup_iff).mpr hnodup).of_cons

theorem mem_swapRemove (hnodup : entries.Nodup) (h : entries[position]? = some a) :
    b ∈ swapRemove entries position ↔ b ∈ entries ∧ b ≠ a := by
  have hperm := swapRemove_perm h
  have hout : a ∉ swapRemove entries position :=
    (List.nodup_cons.mp (hperm.nodup_iff.mpr hnodup)).1
  rw [← hperm.mem_iff, List.mem_cons]
  constructor
  · intro hb
    exact ⟨.inr hb, fun heq => hout (heq ▸ hb)⟩
  · rintro ⟨rfl | hb, hne⟩
    · exact absurd rfl hne
    · exact hb

end FiniteDomains
