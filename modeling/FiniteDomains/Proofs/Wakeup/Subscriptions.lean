import FiniteDomains.Proofs.Wakeup.History
import FiniteDomains.Proofs.Wakeup.SwapRemove
import FiniteDomains.Wakeup.Subscriptions

/-! The constraints that wait for each trigger after any sequence of insertions and removals: those
that were inserted for it more recently than they were taken from it, each of them once. -/
namespace FiniteDomains

def Trigger.rank : Trigger → Nat
  | .ground => 0
  | .bound => 1
  | .any => 2

inductive SubscriptionRequest where
  | insert (c : ConstraintId) (trigger : Trigger)
  | erase (c : ConstraintId)
  deriving DecidableEq, Repr

inductive SubscriptionReply where
  | inserted (new : Bool)
  | erased (trigger : Option Trigger)
  deriving DecidableEq, Repr

namespace Subscriptions
variable {m : Subscriptions} {a c : ConstraintId} {trigger other : Trigger}
variable {entries : List ConstraintId} {history : List (SubscriptionRequest × SubscriptionReply)}

/-- No constraint waits for a trigger twice. -/
def Distinct (m : Subscriptions) : Prop := ∀ trigger, (m.waiting trigger).Nodup

theorem waiting_setWaiting (m : Subscriptions) (trigger other : Trigger)
    (entries : List ConstraintId) : (m.setWaiting trigger entries).waiting other =
      if other = trigger then entries else m.waiting other := by
  cases trigger <;> cases other <;> rfl

/-! ### Insertion -/

theorem waiting_insert (m : Subscriptions) (c : ConstraintId) (trigger other : Trigger) :
    (m.insert c trigger).2.waiting other =
      if other = trigger ∧ c ∉ m.waiting trigger then m.waiting trigger ++ [c]
      else m.waiting other := by
  by_cases hc : c ∈ m.waiting trigger
  · simp [insert, hc]
  · simp [insert, hc, waiting_setWaiting]

theorem mem_insert : a ∈ (m.insert c trigger).2.waiting other ↔
    a ∈ m.waiting other ∨ a = c ∧ other = trigger := by
  rw [waiting_insert]
  split
  · next hnew => rw [List.mem_append, List.mem_singleton, hnew.1, and_iff_left rfl]
  · next hold =>
    constructor
    · exact .inl
    · rintro (ha | ⟨rfl, rfl⟩)
      · exact ha
      · exact not_not.mp fun hout => hold ⟨rfl, hout⟩

theorem Distinct.insert (h : m.Distinct) (c : ConstraintId) (trigger : Trigger) :
    (m.insert c trigger).2.Distinct := by
  intro other
  rw [waiting_insert]
  split
  · next hnew =>
    refine List.nodup_append.mpr ⟨h trigger, by simp, ?_⟩
    rintro a ha b hb rfl
    exact hnew.2 (List.mem_singleton.mp hb ▸ ha)
  · exact h other

/-! ### Removal -/

theorem trigger?_eq_some_iff : m.trigger? c = some trigger ↔
    c ∈ m.waiting trigger ∧ ∀ other, other.rank < trigger.rank → c ∉ m.waiting other := by
  have hothers (P : Trigger → Prop) : (∀ other, P other) ↔ P .ground ∧ P .bound ∧ P .any :=
    ⟨fun h => ⟨h _, h _, h _⟩, fun ⟨hg, hb, ha⟩ other => by cases other <;> assumption⟩
  rw [hothers]
  by_cases hg : c ∈ m.waiting .ground <;> by_cases hb : c ∈ m.waiting .bound <;>
    by_cases ha : c ∈ m.waiting .any <;> cases trigger <;>
    simp [trigger?, Trigger.all, Trigger.rank, hg, hb, ha]

theorem erase_of_none (h : m.trigger? c = none) : m.erase c = (none, m) := by
  simp only [erase, h]

theorem erase_of_some (h : m.trigger? c = some trigger) : m.erase c = (some trigger,
    m.setWaiting trigger (swapRemove (m.waiting trigger) ((m.waiting trigger).idxOf c))) := by
  simp only [erase, h]

theorem erase_fst (m : Subscriptions) (c : ConstraintId) : (m.erase c).1 = m.trigger? c := by
  cases h : m.trigger? c with
  | none => rw [erase_of_none h]
  | some trigger => rw [erase_of_some h]

/-- A constraint is taken from the trigger that is answered, and from no other. -/
theorem Distinct.mem_erase (h : m.Distinct) : a ∈ (m.erase c).2.waiting other ↔
    a ∈ m.waiting other ∧ ¬(a = c ∧ (m.erase c).1 = some other) := by
  cases hfound : m.trigger? c with
  | none => simp [erase_of_none hfound]
  | some trigger =>
    have hc : c ∈ m.waiting trigger := (trigger?_eq_some_iff.mp hfound).1
    rw [erase_of_some hfound, waiting_setWaiting]
    split
    · next heq =>
      subst heq
      rw [mem_swapRemove (h other) (List.getElem?_idxOf hc), and_iff_left rfl]
    · next hne =>
      have hother : ¬some trigger = some other := fun heq => hne (Option.some_inj.mp heq).symm
      rw [and_iff_left fun ⟨_, heq⟩ => hother heq]

theorem Distinct.erase (h : m.Distinct) (c : ConstraintId) : (m.erase c).2.Distinct := by
  cases hfound : m.trigger? c with
  | none => rwa [erase_of_none hfound]
  | some trigger =>
    have hc : c ∈ m.waiting trigger := (trigger?_eq_some_iff.mp hfound).1
    intro other
    rw [erase_of_some hfound, waiting_setWaiting]
    split
    · exact nodup_swapRemove (h trigger) (List.getElem?_idxOf hc)
    · exact h other

/-! ### Sequences of requests -/

def perform (m : Subscriptions) : SubscriptionRequest → SubscriptionReply × Subscriptions
  | .insert c trigger => (.inserted (m.insert c trigger).1, (m.insert c trigger).2)
  | .erase c => (.erased (m.erase c).1, (m.erase c).2)

/-- A constraint has been inserted for a trigger and not been taken from it since. -/
def Inserted (c : ConstraintId) (trigger : Trigger) :
    List (SubscriptionRequest × SubscriptionReply) → Prop :=
  Stands (fun _ entry => entry.1 = .insert c trigger)
    fun entry => entry = (.erase c, .erased (some trigger))

/-- What a history of requests leaves. -/
structure Left (history : List (SubscriptionRequest × SubscriptionReply)) (m : Subscriptions) :
    Prop where
  distinct : m.Distinct
  mem_iff : ∀ c trigger, c ∈ m.waiting trigger ↔ Inserted c trigger history

theorem left_nil : Left [] .empty where
  distinct := fun trigger => by cases trigger <;> exact List.nodup_nil
  mem_iff := by
    intro c trigger
    refine iff_of_false ?_ not_stands_nil
    cases trigger <;> exact List.not_mem_nil

theorem Left.perform (h : Left history m) (request : SubscriptionRequest) :
    Left (history ++ [(request, (m.perform request).1)]) (m.perform request).2 := by
  cases request with
  | insert c trigger =>
    refine ⟨h.distinct.insert c trigger, fun a other => ?_⟩
    rw [Inserted, stands_concat, ← Inserted, ← h.mem_iff]
    simp only [Subscriptions.perform, mem_insert]
    simp [or_comm, eq_comm]
  | erase c =>
    refine ⟨h.distinct.erase c, fun a other => ?_⟩
    rw [Inserted, stands_concat, ← Inserted, ← h.mem_iff]
    simp only [Subscriptions.perform, h.distinct.mem_erase]
    simp [eq_comm]

theorem left_recordAll (requests : List SubscriptionRequest) :
    Left (recordAll Subscriptions.perform .empty requests).1
      (recordAll Subscriptions.perform .empty requests).2 :=
  recordAll_keeps left_nil (fun _ _ request h => h.perform request) requests

theorem contains_iff : m.contains c = true ↔ ∃ trigger, c ∈ m.waiting trigger := by
  simp only [contains, List.any_eq_true, List.contains_iff_mem]
  exact ⟨fun ⟨trigger, _, hc⟩ => ⟨trigger, hc⟩,
    fun ⟨trigger, hc⟩ => ⟨trigger, by cases trigger <;> simp [Trigger.all], hc⟩⟩

theorem isEmpty_iff : m.isEmpty = true ↔ ∀ trigger, m.waiting trigger = [] := by
  simp only [isEmpty, length, decide_eq_true_iff, Nat.add_eq_zero_iff, List.length_eq_zero_iff]
  exact ⟨fun ⟨⟨hg, hb⟩, ha⟩ trigger => by cases trigger <;> assumption,
    fun h => ⟨⟨h .ground, h .bound⟩, h .any⟩⟩

/-- In every sequence of requests a constraint waits for a trigger, once, if it was inserted for it
more recently than it was taken from it. A removal takes it from the most specific trigger that it
waits for, answers which one that is, and otherwise leaves who waits for what. -/
theorem latest_insertion_counts (requests : List SubscriptionRequest) :
    let record := recordAll Subscriptions.perform .empty requests
    let history := record.1
    let m := record.2
    (∀ trigger, (m.waiting trigger).Nodup) ∧
      (∀ c trigger, c ∈ m.waiting trigger ↔ Inserted c trigger history) ∧
      (∀ c trigger, (m.erase c).1 = some trigger ↔ c ∈ m.waiting trigger ∧
        ∀ other, other.rank < trigger.rank → c ∉ m.waiting other) ∧
      (∀ a c trigger, a ∈ (m.erase c).2.waiting trigger ↔
        a ∈ m.waiting trigger ∧ ¬(a = c ∧ (m.erase c).1 = some trigger)) ∧
      (∀ c, m.contains c = true ↔ ∃ trigger, c ∈ m.waiting trigger) ∧
      m.length = (m.waiting .ground).length + (m.waiting .bound).length +
        (m.waiting .any).length ∧
      (m.isEmpty = true ↔ ∀ trigger, m.waiting trigger = []) := by
  intro record history m
  have h : Left history m := left_recordAll requests
  refine ⟨h.distinct, h.mem_iff, fun c trigger => ?_, fun a c trigger => h.distinct.mem_erase,
    fun c => contains_iff, rfl, isEmpty_iff⟩
  rw [erase_fst]
  exact trigger?_eq_some_iff

end Subscriptions
end FiniteDomains
