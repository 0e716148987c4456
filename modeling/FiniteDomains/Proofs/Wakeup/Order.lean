import FiniteDomains.Proofs.Wakeup.History
import FiniteDomains.Proofs.Wakeup.Queue

/-! The order in which waiting constraints are popped: that of the requests that have enqueued them
first since they were last taken. In every sequence of requests the two lists of a queue stay in
step, and the order is the one that the history of the requests tells. -/
namespace FiniteDomains

inductive WakeRequest where
  | enqueue (c : ConstraintId)
  | pop
  | clear
  deriving DecidableEq, Repr

namespace WakeLists
variable {w : WakeLists} {a c : ConstraintId} {i j : Nat}
variable {entry : WakeRequest × Option ConstraintId}
variable {history : List (WakeRequest × Option ConstraintId)}

/-- Changes the lists as a request asks for, and answers what is popped. -/
def perform (w : WakeLists) : WakeRequest → Option ConstraintId × WakeLists
  | .enqueue c => (none, w.enqueue c)
  | .pop =>
    match w.pop? with
    | some (c, rest) => (some c, rest)
    | none => (none, w)
  | .clear => (none, .empty)

/-- A request with its answer takes a constraint from the queue if it waits there. -/
def Takes (c : ConstraintId) (entry : WakeRequest × Option ConstraintId) : Prop :=
  entry = (.pop, some c) ∨ entry.1 = .clear

/-- A constraint has been enqueued and not been taken since. -/
def Awaits (c : ConstraintId) : List (WakeRequest × Option ConstraintId) → Prop :=
  Stands (fun _ entry => entry.1 = .enqueue c) (Takes c)

/-- The request at a position was the first to enqueue a constraint since it was last taken, and it
has not been taken since then. -/
def EntersAt (c : ConstraintId) (i : Nat) : List (WakeRequest × Option ConstraintId) → Prop :=
  Stands (fun before entry => entry.1 = .enqueue c ∧ ¬Awaits c before ∧ before.length = i) (Takes c)

theorem awaits_concat : Awaits c (history ++ [entry]) ↔
    entry.1 = .enqueue c ∨ Awaits c history ∧ ¬Takes c entry := stands_concat

theorem entersAt_concat : EntersAt c i (history ++ [entry]) ↔
    (entry.1 = .enqueue c ∧ ¬Awaits c history ∧ history.length = i) ∨
      EntersAt c i history ∧ ¬Takes c entry := stands_concat

theorem not_takes_of_enqueue (h : entry.1 = .enqueue a) : ¬Takes c entry := by
  rintro (rfl | hclear)
  · cases h
  · rw [h] at hclear
    cases hclear

/-! ### Positions in a history -/

theorem EntersAt.awaits (h : EntersAt c i history) : Awaits c history := by
  obtain ⟨before, entry, after, hsplit, ⟨henqueue, -, -⟩, hkept⟩ := h
  exact ⟨before, entry, after, hsplit, henqueue, hkept⟩

theorem EntersAt.lt (h : EntersAt c i history) : i < history.length := by
  obtain ⟨before, entry, after, rfl, ⟨-, -, rfl⟩, -⟩ := h
  simp

theorem Awaits.exists_entersAt (h : Awaits c history) : ∃ i, EntersAt c i history := by
  induction history using List.reverseRecOn with
  | nil => exact absurd h not_stands_nil
  | append_singleton history entry ih =>
    by_cases hold : Awaits c history
    · obtain ⟨i, hi⟩ := ih hold
      refine ⟨i, entersAt_concat.mpr (.inr ⟨hi, ?_⟩)⟩
      rcases awaits_concat.mp h with henqueue | ⟨-, hkept⟩
      · exact not_takes_of_enqueue henqueue
      · exact hkept
    · have henqueue := (awaits_concat.mp h).resolve_right fun hstood => hold hstood.1
      exact ⟨history.length, entersAt_concat.mpr (.inl ⟨henqueue, hold, rfl⟩)⟩

theorem EntersAt.unique (hi : EntersAt c i history) (hj : EntersAt c j history) : i = j := by
  induction history using List.reverseRecOn with
  | nil => exact absurd hi not_stands_nil
  | append_singleton history entry ih =>
    rcases entersAt_concat.mp hi with ⟨-, hout, rfl⟩ | ⟨hi, -⟩ <;>
      rcases entersAt_concat.mp hj with ⟨-, hout', rfl⟩ | ⟨hj, -⟩
    · rfl
    · exact absurd hj.awaits hout
    · exact absurd hi.awaits hout'
    · exact ih hi hj

/-! ### What every request keeps -/

/-- The lists that a history leaves: they are in step, and the constraints that wait are in the
order in which they have come. -/
structure Left (history : List (WakeRequest × Option ConstraintId)) (w : WakeLists) : Prop where
  inStep : w.InStep
  mem_iff : ∀ c, c ∈ w.order ↔ Awaits c history
  ordered : w.order.Pairwise fun a b =>
    ∀ i j, EntersAt a i history → EntersAt b j history → i < j

theorem left_nil : Left [] .empty where
  inStep := inStep_empty
  mem_iff := fun _ => iff_of_false List.not_mem_nil not_stands_nil
  ordered := List.Pairwise.nil

theorem Left.ordered_concat (h : Left history w) {order : List ConstraintId}
    (hsub : order.Sublist w.order) (hout : ∀ c ∈ order, entry.1 = .enqueue c → Awaits c history) :
    order.Pairwise fun a b =>
      ∀ i j, EntersAt a i (history ++ [entry]) → EntersAt b j (history ++ [entry]) → i < j := by
  have hold : ∀ c ∈ order, ∀ i, EntersAt c i (history ++ [entry]) → EntersAt c i history := by
    intro c hc i hi
    rcases entersAt_concat.mp hi with ⟨henqueue, hnew, -⟩ | ⟨hi, -⟩
    · exact absurd (hout c hc henqueue) hnew
    · exact hi
  refine (h.ordered.sublist hsub).imp_of_mem fun ha hb hlt i j hi hj => ?_
  exact hlt i j (hold _ ha i hi) (hold _ hb j hj)

theorem Left.enqueue (h : Left history w) (c : ConstraintId) :
    Left (history ++ [(.enqueue c, none)]) (w.enqueue c) := by
  have horder := h.inStep.order_enqueue c
  have hkeeps : ∀ a, ¬Takes a (.enqueue c, none) := fun a => not_takes_of_enqueue rfl
  have hawaits : ∀ a, Awaits a (history ++ [(.enqueue c, none)]) ↔ c = a ∨ a ∈ w.order := by
    intro a
    rw [awaits_concat, h.mem_iff]
    simp [hkeeps]
  refine ⟨h.inStep.enqueue c, fun a => ?_, ?_⟩
  · rw [hawaits, horder]
    split
    · next hc =>
      constructor
      · exact .inr
      · rintro (rfl | ha)
        · exact hc
        · exact ha
    · rw [List.mem_append, List.mem_singleton, or_comm, eq_comm]
  · rw [horder]
    split
    · next hc =>
      refine h.ordered_concat (List.Sublist.refl _) fun a _ henqueue => ?_
      obtain rfl : c = a := WakeRequest.enqueue.inj henqueue
      exact (h.mem_iff c).mp hc
    · next hc =>
      refine List.pairwise_append.mpr ⟨?_, List.pairwise_singleton _ _, ?_⟩
      · exact h.ordered_concat (List.Sublist.refl _) fun a ha _ => (h.mem_iff a).mp ha
      · -- the constraint that enters now comes behind all that wait already
        intro a ha b hb i j hi hj
        obtain rfl := List.mem_singleton.mp hb
        rcases entersAt_concat.mp hj with ⟨-, -, rfl⟩ | ⟨hj, -⟩
        · rcases entersAt_concat.mp hi with ⟨-, hnew, -⟩ | ⟨hi, -⟩
          · exact absurd ((h.mem_iff a).mp ha) hnew
          · exact hi.lt
        · exact absurd ((h.mem_iff b).mpr hj.awaits) hc

theorem perform_pop_nil (h : w.order = []) : w.perform .pop = (none, w) := by
  simp only [perform, pop?, h, List.head?_nil, Option.map_none]

theorem perform_pop_cons {rest : List ConstraintId} (h : w.order = c :: rest) :
    w.perform .pop = (some c, w.dropFirst) := by
  simp only [perform, pop?, h, List.head?_cons, Option.map_some]

theorem Left.pop (h : Left history w) :
    Left (history ++ [(.pop, (w.perform .pop).1)]) (w.perform .pop).2 := by
  cases horder : w.order with
  | nil =>
    rw [perform_pop_nil horder]
    refine ⟨h.inStep, fun a => ?_, h.ordered_concat (List.Sublist.refl _) ?_⟩
    · rw [awaits_concat, h.mem_iff]
      simp [Takes]
    · rintro a - ⟨⟩
  | cons c rest =>
    rw [perform_pop_cons horder]
    have hdrop : w.dropFirst.order = rest := by rw [order_dropFirst, horder, List.tail_cons]
    have hnodup : (c :: rest).Nodup := horder ▸ h.inStep.order_nodup
    refine ⟨h.inStep.dropFirst, fun a => ?_, h.ordered_concat ?_ ?_⟩
    · rw [awaits_concat, ← h.mem_iff, horder, hdrop, List.mem_cons]
      have hout : a ∈ rest → ¬c = a := fun ha heq => (List.nodup_cons.mp hnodup).1 (heq ▸ ha)
      constructor
      · intro ha
        exact .inr ⟨.inr ha, by simpa [Takes] using hout ha⟩
      · rintro (⟨⟨⟩⟩ | ⟨rfl | ha, hkept⟩)
        · exact absurd (.inl rfl) hkept
        · exact ha
    · rw [hdrop, horder]
      exact List.sublist_cons_self c rest
    · rintro a - ⟨⟩

theorem Left.clear : Left (history ++ [(.clear, none)]) .empty where
  inStep := inStep_empty
  mem_iff := by
    intro c
    rw [awaits_concat]
    simp [Takes, empty]
  ordered := List.Pairwise.nil

theorem Left.perform (h : Left history w) (request : WakeRequest) :
    Left (history ++ [(request, (w.perform request).1)]) (w.perform request).2 := by
  cases request with
  | enqueue c => exact h.enqueue c
  | pop => exact h.pop
  | clear => exact .clear

theorem left_recordAll (requests : List WakeRequest) :
    Left (recordAll WakeLists.perform .empty requests).1
      (recordAll WakeLists.perform .empty requests).2 :=
  recordAll_keeps left_nil (fun _ _ request h => h.perform request) requests

/-- What is popped is the constraint that has come before all others that wait. -/
theorem Left.pop_iff (h : Left history w) : (w.perform .pop).1 = some c ↔
    ∃ i, EntersAt c i history ∧ ∀ a j, EntersAt a j history → i ≤ j := by
  cases horder : w.order with
  | nil =>
    rw [perform_pop_nil horder]
    refine iff_of_false (by simp) ?_
    rintro ⟨i, hi, -⟩
    have hmem := (h.mem_iff c).mpr hi.awaits
    rw [horder] at hmem
    cases hmem
  | cons first rest =>
    rw [perform_pop_cons horder, Option.some_inj]
    have hordered := h.ordered
    rw [horder] at hordered
    have hbefore := (List.pairwise_cons.mp hordered).1
    have hfirst : Awaits first history := (h.mem_iff first).mp (horder ▸ List.mem_cons_self)
    have hmem : ∀ a j, EntersAt a j history → a = first ∨ a ∈ rest := by
      intro a j hj
      have ha := (h.mem_iff a).mpr hj.awaits
      rw [horder] at ha
      exact List.mem_cons.mp ha
    obtain ⟨i, hi⟩ := hfirst.exists_entersAt
    constructor
    · rintro rfl
      refine ⟨i, hi, fun a j hj => ?_⟩
      rcases hmem a j hj with rfl | ha
      · exact Nat.le_of_eq (hi.unique hj)
      · exact Nat.le_of_lt (hbefore a ha i j hi hj)
    · rintro ⟨j, hj, hleast⟩
      rcases hmem c j hj with rfl | hc
      · rfl
      · exact absurd (hleast first i hi) (Nat.not_le.mpr (hbefore c hc i j hi hj))

/-- In every sequence of requests the set holds what is in the order, each constraint once, the
length and emptiness of the queue are read off rightly, and the constraints wait and are popped in
the order of the requests that have enqueued them first since they were last popped or cleared. -/
theorem popped_in_wake_order (requests : List WakeRequest) :
    let record := recordAll WakeLists.perform .empty requests
    let history := record.1
    let w := record.2
    (∀ c, c ∈ w.present ↔ c ∈ w.order) ∧ w.order.Nodup ∧ w.length = w.order.length ∧
      (w.isEmpty = true ↔ w.order = []) ∧
      (∀ c, c ∈ w.order ↔ ∃ i, EntersAt c i history) ∧
      (w.order.Pairwise fun a b =>
        ∀ i j, EntersAt a i history → EntersAt b j history → i < j) ∧
      ∀ c, (w.perform .pop).1 = some c ↔
        ∃ i, EntersAt c i history ∧ ∀ a j, EntersAt a j history → i ≤ j := by
  intro record history w
  have h : Left history w := left_recordAll requests
  refine ⟨h.inStep.mem_iff, h.inStep.order_nodup, h.inStep.length_eq, h.inStep.isEmpty_iff,
    fun c => ?_, h.ordered, fun c => h.pop_iff⟩
  rw [h.mem_iff]
  exact ⟨Awaits.exists_entersAt, fun ⟨i, hi⟩ => hi.awaits⟩

/-- A constraint that waits keeps its place, one that has been popped goes to the back. -/
example : (recordAll WakeLists.perform .empty
    [.enqueue 2, .enqueue 0, .enqueue 2, .pop, .enqueue 2, .pop, .pop, .pop]).1.map Prod.snd =
      [none, none, none, some 2, none, some 0, some 2, none] := by decide

end WakeLists
end FiniteDomains
