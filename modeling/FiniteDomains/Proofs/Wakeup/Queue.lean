import FiniteDomains.Wakeup.Queue
import Mathlib.Data.List.Perm.Basic

/-! What changes of a queue do to the constraints in it. The order and the set are in step, so what
the set says (whether a constraint is there, how many there are) holds of the order. -/
namespace FiniteDomains

theorem WakeLists.InStep.perm {w : WakeLists} (h : w.InStep) : w.present.Perm w.order :=
  (List.perm_ext_iff_of_nodup h.present_nodup h.order_nodup).mpr h.mem_iff

theorem WakeLists.InStep.length_eq {w : WakeLists} (h : w.InStep) : w.length = w.order.length :=
  h.perm.length_eq

theorem WakeLists.InStep.isEmpty_iff {w : WakeLists} (h : w.InStep) :
    w.isEmpty = true ↔ w.order = [] := by
  rw [WakeLists.isEmpty, List.isEmpty_iff, ← List.length_eq_zero_iff, ← List.length_eq_zero_iff,
    h.perm.length_eq]

theorem WakeLists.InStep.order_enqueue {w : WakeLists} (h : w.InStep) (c : ConstraintId) :
    (w.enqueue c).order = if c ∈ w.order then w.order else w.order ++ [c] := by
  simp only [WakeLists.enqueue, List.contains_iff_mem, h.mem_iff]
  split <;> rfl

namespace WakeQueue
variable {q : WakeQueue} {c : ConstraintId} {cs : List ConstraintId}

theorem length_eq (q : WakeQueue) : q.length = q.waiting.length := q.inStep.length_eq

theorem isEmpty_iff : q.isEmpty = true ↔ q.waiting = [] := q.inStep.isEmpty_iff

theorem waiting_enqueue (q : WakeQueue) (c : ConstraintId) :
    (q.enqueue c).waiting = if c ∈ q.waiting then q.waiting else q.waiting ++ [c] :=
  q.inStep.order_enqueue c

theorem eq_empty (h : q.waiting = []) : q = .empty := by
  have hpresent : q.lists.present = [] := List.isEmpty_iff.mp (isEmpty_iff.mpr h)
  obtain ⟨⟨order, present⟩, hstep⟩ := q
  obtain rfl : order = [] := h
  obtain rfl : present = [] := hpresent
  rfl

theorem enqueueAll_eq (q : WakeQueue) (cs : List ConstraintId) :
    (q.enqueueAll cs).waiting = q.waiting ++ (cs.removeAll q.waiting).eraseDups := by
  induction cs generalizing q with
  | nil => simp [enqueueAll]
  | cons c cs ih =>
    have hstep : q.enqueueAll (c :: cs) = (q.enqueue c).enqueueAll cs := rfl
    rw [hstep, ih]
    by_cases hc : c ∈ q.waiting
    · simp [waiting_enqueue, hc, List.removeAll]
    · have hfirst : (c :: cs).removeAll q.waiting = c :: cs.removeAll q.waiting := by
        simp [List.removeAll, hc]
      have hrest : (cs.removeAll q.waiting).filter (fun b => !b == c) =
          cs.removeAll (q.waiting ++ [c]) := by
        simp only [List.removeAll, List.filter_filter]
        refine List.filter_congr fun b _ => ?_
        by_cases hb : b = c <;> simp [hb, hc]
      simp [waiting_enqueue, hc, hfirst, List.eraseDups_cons, hrest]

theorem nodup_eraseDups (cs : List ConstraintId) : cs.eraseDups.Nodup := by
  -- the recursion is on the entries that differ from the first one
  induction hlen : cs.length using Nat.strongRecOn generalizing cs with
  | _ size ih =>
    cases cs with
    | nil => simp
    | cons c cs =>
      have hlt : (cs.filter fun b => !b == c).length < size := by
        have hle := List.length_filter_le (fun b => !b == c) cs
        rw [List.length_cons] at hlen
        omega
      rw [List.eraseDups_cons, List.nodup_cons]
      exact ⟨by simp [List.mem_eraseDups], ih _ hlt _ rfl⟩

theorem enqueueAll_waiting (q : WakeQueue) (cs : List ConstraintId) :
    ∃ new, (q.enqueueAll cs).waiting = q.waiting ++ new ∧ new.Nodup ∧
      ∀ c, c ∈ new ↔ c ∈ cs ∧ c ∉ q.waiting :=
  ⟨_, enqueueAll_eq q cs, nodup_eraseDups _, by simp [List.mem_eraseDups, List.removeAll]⟩

theorem mem_enqueueAll : c ∈ (q.enqueueAll cs).waiting ↔ c ∈ q.waiting ∨ c ∈ cs := by
  obtain ⟨new, hnew, -, hmem⟩ := enqueueAll_waiting q cs
  rw [hnew, List.mem_append, hmem]
  constructor
  · rintro (hc | ⟨hc, -⟩)
    · exact .inl hc
    · exact .inr hc
  · rintro (hc | hc)
    · exact .inl hc
    · by_cases hq : c ∈ q.waiting
      · exact .inl hq
      · exact .inr ⟨hc, hq⟩

end WakeQueue

end FiniteDomains
