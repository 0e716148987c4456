import FiniteDomains.Text

/-! The constraints waiting to be run, in the order in which they were first woken. They are kept
twice, in order and as a set, and a queue is a pair of the two that say the same. -/
namespace FiniteDomains

/-- The waiting constraints in order, and the set of them in which a constraint is looked up before
it is queued. -/
structure WakeLists where
  order : List ConstraintId
  /-- A set, so the order of its entries says nothing. -/
  present : List ConstraintId
  deriving DecidableEq, Repr

namespace WakeLists

def empty : WakeLists := ⟨[], []⟩

def isEmpty (w : WakeLists) : Bool := w.present.isEmpty

def length (w : WakeLists) : Nat := w.present.length

/-- A constraint that is present already keeps its place. -/
def enqueue (w : WakeLists) (c : ConstraintId) : WakeLists :=
  if w.present.contains c then w else ⟨w.order ++ [c], c :: w.present⟩

def dropFirst (w : WakeLists) : WakeLists :=
  match w.order with
  | [] => w
  | c :: rest => ⟨rest, w.present.erase c⟩

def pop? (w : WakeLists) : Option (ConstraintId × WakeLists) :=
  w.order.head?.map fun c => (c, w.dropFirst)

/-- Both lists hold the same constraints, each of them once. -/
structure InStep (w : WakeLists) : Prop where
  order_nodup : w.order.Nodup
  present_nodup : w.present.Nodup
  mem_iff : ∀ c, c ∈ w.present ↔ c ∈ w.order

variable {w : WakeLists}

theorem inStep_empty : empty.InStep := ⟨List.nodup_nil, List.nodup_nil, fun _ => Iff.rfl⟩

theorem InStep.enqueue (h : w.InStep) (c : ConstraintId) : (w.enqueue c).InStep := by
  simp only [WakeLists.enqueue]
  split
  · exact h
  · next hc =>
    have hpresent : c ∉ w.present := by simpa using hc
    have horder : c ∉ w.order := fun hmem => hpresent ((h.mem_iff c).mpr hmem)
    refine ⟨?_, List.nodup_cons.mpr ⟨hpresent, h.present_nodup⟩, fun a => ?_⟩
    · refine List.nodup_append.mpr ⟨h.order_nodup, by simp, ?_⟩
      rintro a ha b hb rfl
      exact horder (List.mem_singleton.mp hb ▸ ha)
    · simp [h.mem_iff a, or_comm]

theorem InStep.dropFirst (h : w.InStep) : w.dropFirst.InStep := by
  simp only [WakeLists.dropFirst]
  split
  · exact h
  · next c rest horder =>
    obtain ⟨hc, hrest⟩ := List.nodup_cons.mp (horder ▸ h.order_nodup)
    refine ⟨hrest, h.present_nodup.erase c, fun a => ?_⟩
    rw [h.present_nodup.mem_erase_iff, h.mem_iff, horder, List.mem_cons]
    constructor
    · rintro ⟨hne, rfl | hmem⟩
      · exact absurd rfl hne
      · exact hmem
    · intro hmem
      exact ⟨fun heq => hc (heq ▸ hmem), .inr hmem⟩

@[simp] theorem order_dropFirst (w : WakeLists) : w.dropFirst.order = w.order.tail := by
  simp only [WakeLists.dropFirst]
  split
  · next horder => rw [horder, List.tail_nil]
  · next horder => rw [horder, List.tail_cons]

end WakeLists

/-- A queue that holds each constraint at most once. -/
structure WakeQueue where
  lists : WakeLists
  inStep : lists.InStep
  deriving DecidableEq, Repr

namespace WakeQueue

def waiting (q : WakeQueue) : List ConstraintId := q.lists.order

def empty : WakeQueue := ⟨.empty, WakeLists.inStep_empty⟩

def isEmpty (q : WakeQueue) : Bool := q.lists.isEmpty

def length (q : WakeQueue) : Nat := q.lists.length

/-- A constraint that waits already keeps its place. -/
def enqueue (q : WakeQueue) (c : ConstraintId) : WakeQueue :=
  ⟨q.lists.enqueue c, q.inStep.enqueue c⟩

def enqueueAll (q : WakeQueue) (cs : List ConstraintId) : WakeQueue := cs.foldl enqueue q

def dropFirst (q : WakeQueue) : WakeQueue := ⟨q.lists.dropFirst, q.inStep.dropFirst⟩

def pop? (q : WakeQueue) : Option (ConstraintId × WakeQueue) :=
  q.waiting.head?.map fun c => (c, q.dropFirst)

@[simp] theorem waiting_dropFirst (q : WakeQueue) : q.dropFirst.waiting = q.waiting.tail :=
  q.lists.order_dropFirst

end WakeQueue
end FiniteDomains
