import FiniteDomains.Proofs.Engine.Primed

/-! Sessions with an engine: posting, narrowing, entering levels, going back and propagation in any
order. Going back forgets what was woken. That does no harm on a level that was left with all
propagators settled, and on any other level propagation misses what was pending there. -/
namespace FiniteDomains

namespace Engine
variable {t : ValueType} {e e' e₁ : Engine t} {c : ConstraintId} {p : Propagator t} {s : Store t}
variable {left : List (Engine t)} {failed : Bool} {level : Nat} {n : Narrowing t}

/-- An engine at the root with nothing posted on it. -/
structure Fresh (e : Engine t) : Prop where
  regular : e.store.Regular
  root : e.store.level = 0
  unregistered : e.store.registered = []
  unwoken : e.store.woken.waiting = []
  unposted : e.propagators = []

/-- After a failure only lower levels can be gone back to. -/
def MayReturn (e : Engine t) (failed : Bool) (level : Nat) : Prop :=
  if failed then level < e.store.level else level ≤ e.store.level

/-- The engine as it was when a level was left, which for the current level is as it is now. -/
def leftAt (e : Engine t) (left : List (Engine t)) (level : Nat) : Option (Engine t) :=
  (e :: left)[e.store.level - level]?

/-- A session that goes back only to levels that were left with all propagators settled. It is noted
how each lower level was left, the highest first, and whether the last step has failed. -/
inductive Session : List (Engine t) → Bool → Engine t → Prop
  | fresh (e : Engine t) : e.Fresh → Session [] false e
  | post (left : List (Engine t)) (e e' : Engine t) (p : Propagator t) (c : ConstraintId) :
      Session left false e → p.Builtin → e.post p = .done e' c → Session left false e'
  | narrow (left : List (Engine t)) (e : Engine t) (x : VarId) (n : Narrowing t) (s : Store t)
      (change : Change) :
      Session left false e → n.Proper → e.store.narrow x n = .done s change →
      Session left false (e.withStore s)
  | narrowFails (left : List (Engine t)) (e : Engine t) (x : VarId) (n : Narrowing t)
      (s : Store t) :
      Session left false e → n.Proper → e.store.narrow x n = .emptied s →
      Session left true (e.withStore s)
  | pushLevel (left : List (Engine t)) (e : Engine t) :
      Session left false e → Session (e :: left) false e.pushLevel
  | backtrack (left : List (Engine t)) (failed : Bool) (e e' e₁ : Engine t) (level : Nat) :
      Session left failed e → e.MayReturn failed level → e.backtrack level = .ok e' →
      e.leftAt left level = some e₁ → e₁.AllSettled →
      Session (left.drop (e.store.level - level)) false e'
  | propagate (left : List (Engine t)) (e e' : Engine t) :
      Session left false e → e.propagate = .done e' () → Session left false e'
  | propagateFails (left : List (Engine t)) (e e' : Engine t) :
      Session left false e → e.propagate = .emptied e' → Session left true e'

/-- A primed engine that is primed again when it goes back. -/
structure Restorable (e : Engine t) : Prop extends e.Primed where
  below : ∀ low < e.store.level, (e.withStore (e.store.restored low)).Primed

/-- Going back restores each lower level as it was left. -/
structure Remembers (left : List (Engine t)) (e : Engine t) : Prop where
  length : left.length = e.store.level
  below : ∀ low < e.store.level, ∀ e₁, e.leftAt left low = some e₁ →
    e₁.propagators = e.propagators ∧ e.store.restored low = e₁.store.forgetWoken

/-- Lower levels are as they were left, and nothing is missed on the current one, unless a failure
has ended it. -/
structure Kept (left : List (Engine t)) (failed : Bool) (e : Engine t) : Prop extends
    e.Restorable where
  remembers : Remembers left e
  covered : failed = false → e.Covered

theorem MayReturn.le (h : e.MayReturn failed level) : level ≤ e.store.level := by
  simp only [MayReturn] at h
  split at h
  · exact Nat.le_of_lt h
  · exact h

theorem Fresh.tracked (h : e.Fresh) : e.Tracked where
  wellFormed := h.regular.toWellFormed
  builtin := by simp [h.unposted]
  has := by simp [h.unposted]
  queued := by simp [h.unwoken]
  registered := by simp [h.unregistered]
  admissible := h.regular.admissible
  subscribed := by simp [h.unposted]

theorem Fresh.allSettled (h : e.Fresh) : e.AllSettled := by simp [AllSettled, h.unposted]

theorem Primed.restorable_root (h : e.Primed) (hroot : e.store.level = 0) : e.Restorable := by
  refine ⟨h, fun low hlow => ?_⟩
  rw [hroot] at hlow
  exact absurd hlow (Nat.not_lt_zero low)

theorem remembers_root (hroot : e.store.level = 0) : Remembers [] e := by
  refine ⟨hroot.symm, fun low hlow => ?_⟩
  rw [hroot] at hlow
  exact absurd hlow (Nat.not_lt_zero low)

theorem leftAt_current (e : Engine t) (left : List (Engine t)) :
    e.leftAt left e.store.level = some e := by
  rw [leftAt, Nat.sub_self]
  rfl

theorem leftAt_below (left : List (Engine t)) (hlt : level < e.store.level) :
    e.leftAt left level = left[e.store.level - level - 1]? := by
  have hpos : e.store.level - level = e.store.level - level - 1 + 1 := by omega
  rw [leftAt, hpos]
  rfl

theorem Restorable.stays (h : e.Restorable) (hs : e.Stays e') : e'.Restorable := by
  refine ⟨hs.primed, fun low hlow => ?_⟩
  rw [hs.level] at hlow
  obtain ⟨⟨⟨hwf, hbuiltin, hhas, hqueued, hreg⟩, hadm, hsub⟩, hexcluded⟩ := h.below low hlow
  have hrestored := hs.below low hlow
  obtain ⟨store, propagators, checked, runs⟩ := e'
  obtain rfl : propagators = e.propagators := hs.propagators
  simp only [withStore, hrestored] at *
  exact ⟨⟨⟨hwf, hbuiltin, hhas, hqueued, hreg⟩, hadm, hsub⟩, hexcluded⟩

theorem Restorable.backtrack_eq (h : e.Restorable) (hle : level ≤ e.store.level) :
    e.backtrack level = .ok (e.withStore (e.store.restored level)) := by
  simp only [backtrack, h.wellFormed.backtrack_eq hle]

theorem Remembers.stays (h : Remembers left e) (hs : e.Stays e') : Remembers left e' := by
  refine ⟨h.length.trans hs.level.symm, fun low hlow e₁ hleft => ?_⟩
  rw [leftAt_below left hlow, hs.level] at hleft
  rw [hs.level] at hlow
  rw [hs.propagators, hs.below low hlow]
  exact h.below low hlow e₁ ((leftAt_below left hlow).trans hleft)

theorem Remembers.pushLevel (h : Remembers left e) (hlayered : e.store.Layered) :
    Remembers (e :: left) e.pushLevel := by
  refine ⟨congrArg Nat.succ h.length, fun low hlow e₁ hleft => ?_⟩
  have hle : low ≤ e.store.level := Nat.le_of_lt_succ hlow
  have hindex : e.store.level + 1 - low - 1 = e.store.level - low := by omega
  have hleft : e.leftAt left low = some e₁ := by
    rw [leftAt_below _ hlow] at hleft
    rw [leftAt, ← hindex]
    exact hleft
  have hrestored : e.pushLevel.store.restored low = e.store.restored low :=
    Store.restored_pushLevel hle
  rw [hrestored]
  rcases Nat.lt_or_eq_of_le hle with hlt | rfl
  · exact h.below low hlt e₁ hleft
  · rw [leftAt_current, Option.some_inj] at hleft
    subst hleft
    exact ⟨rfl, hlayered.restored_self⟩

theorem Remembers.restored (h : Remembers left e) (hle : level ≤ e.store.level) :
    Remembers (left.drop (e.store.level - level)) (e.withStore (e.store.restored level)) := by
  refine ⟨?_, fun low hlow e₁ hleft => ?_⟩
  · have hlen := h.length
    change (left.drop (e.store.level - level)).length = level
    rw [List.length_drop]
    omega
  · have hlow : low < level := hlow
    have hindex : e.store.level - level + (level - low - 1) = e.store.level - low - 1 := by omega
    have hrestored := Store.restored_restored (s := e.store) (Nat.le_of_lt hlow) hle
    rw [leftAt_below _ hlow] at hleft
    change (left.drop (e.store.level - level))[level - low - 1]? = some e₁ at hleft
    rw [List.getElem?_drop, hindex] at hleft
    have hbelow := h.below low (by omega) e₁ ((leftAt_below left (by omega)).trans hleft)
    rw [← hrestored] at hbelow
    exact hbelow

theorem Remembers.leftAt (h : Remembers left e) (hlayered : e.store.Layered)
    (hle : level ≤ e.store.level) : ∃ e₁, e.leftAt left level = some e₁ ∧
      e₁.propagators = e.propagators ∧ e.store.restored level = e₁.store.forgetWoken := by
  rcases Nat.lt_or_eq_of_le hle with hlt | rfl
  · have hlen := h.length
    have hindex : e.store.level - level - 1 < left.length := by omega
    have hleft := (leftAt_below left hlt).trans (List.getElem?_eq_getElem hindex)
    exact ⟨_, hleft, h.below level hlt _ hleft⟩
  · exact ⟨e, leftAt_current e left, rfl, hlayered.restored_self⟩

theorem Kept.fails (h : Kept left false e) (hs : e.Stays e') : Kept left true e' :=
  ⟨h.toRestorable.stays hs, h.remembers.stays hs, fun hne => by cases hne⟩

theorem Kept.succeeds (h : Kept left false e) (hs : e.Stays e') (hcovered : e'.Covered) :
    Kept left false e' :=
  ⟨h.toRestorable.stays hs, h.remembers.stays hs, fun _ => hcovered⟩

variable [t.Lawful]

theorem Restorable.pushLevel (h : e.Restorable) : e.pushLevel.Restorable := by
  refine ⟨h.toPrimed.of_domains h.toTracked.pushLevel rfl rfl, fun low hlow => ?_⟩
  have hle : low ≤ e.store.level := Nat.le_of_lt_succ hlow
  have hrestored : e.pushLevel.store.restored low = e.store.restored low :=
    Store.restored_pushLevel hle
  rw [hrestored]
  rcases Nat.lt_or_eq_of_le hle with hlt | rfl
  · exact h.below low hlt
  · rw [h.wellFormed.restored_self]
    exact h.toPrimed.forgetWoken.primed

theorem Restorable.restored (h : e.Restorable) (hle : level ≤ e.store.level) :
    (e.withStore (e.store.restored level)).Restorable := by
  rcases Nat.lt_or_eq_of_le hle with hlt | rfl
  · refine ⟨h.below level hlt, fun low hlow => ?_⟩
    have hlow : low < level := hlow
    have hrestored := Store.restored_restored (s := e.store) (Nat.le_of_lt hlow) hle
    have hbelow := h.below low (Nat.lt_trans hlow hlt)
    rw [← hrestored] at hbelow
    exact hbelow
  · rw [h.wellFormed.restored_self]
    exact h.stays h.toPrimed.forgetWoken

theorem Kept.post (h : Kept left false e) (hp : p.Builtin) (hout : e.post p = .done e' c) :
    Kept left false e' := by
  -- Posting is possible at the root only, where there is nothing to go back to.
  obtain ⟨-, e₁, hroot₁, h₁, hsettles⟩ := (h.covered rfl).post hp hout
  have hcovered := hsettles.covered h₁
  have hprimed := (hsettles.allSettled h₁).primed hcovered.toTracked
  have hroot : e'.store.level = 0 := (hsettles.level h₁.toProper).trans hroot₁
  have hlen : left.length = 0 := h.remembers.length.trans (post_root hout)
  obtain rfl : left = [] := List.eq_nil_of_length_eq_zero hlen
  exact ⟨hprimed.restorable_root hroot, remembers_root hroot, fun _ => hcovered⟩

/-- What is restored is settled where it was settled when it was left. -/
theorem Kept.allSettled_iff (h : Kept left failed e) (hle : level ≤ e.store.level)
    (hleft : e.leftAt left level = some e₁) :
    (e.withStore (e.store.restored level)).AllSettled ↔ e₁.AllSettled := by
  obtain ⟨e₂, hleft', hps, hrestored⟩ := h.remembers.leftAt h.wellFormed.toLayered hle
  obtain rfl : e₁ = e₂ := Option.some_inj.mp (hleft.symm.trans hleft')
  have hback := h.toRestorable.restored hle
  have hregular : e₁.store.Regular := by
    have hwoken := hback.regular.withWoken e₁.store.woken
    simp only [withStore, hrestored] at hwoken
    exact hwoken
  have hdom : (e.store.restored level).domains = e₁.store.domains := by
    rw [hrestored]
    rfl
  have hsettled (p : Propagator t) (hp : p ∈ e.propagators) :
      p.Settled (e.store.restored level) ↔ p.Settled e₁.store := by
    have hhas := hback.has p hp
    have hhas₁ : e₁.store.Has p.vars := Store.has_of_domains hdom.symm hhas
    have hbuiltin := h.builtin p hp
    exact ⟨hbuiltin.settled_of_domains hback.regular hregular hhas hhas₁ hdom.symm,
      hbuiltin.settled_of_domains hregular hback.regular hhas₁ hhas hdom⟩
  constructor
  · intro hset p hp
    rw [hps] at hp
    exact (hsettled p hp).mp (hset p hp)
  · intro hset p hp
    exact (hsettled p hp).mpr (hset p (hps ▸ hp))

theorem Session.kept (h : Session left failed e) : Kept left failed e := by
  induction h with
  | fresh e h =>
    have hprimed := h.allSettled.primed h.tracked
    exact ⟨hprimed.restorable_root h.root, remembers_root h.root,
      fun _ => h.allSettled.covered h.tracked⟩
  | post left e e' p c _ hp hout ih => exact ih.post hp hout
  | narrow left e x n s change _ hn hout ih =>
    have hstays := ih.narrow x hn
    have hcovered := (ih.covered rfl).narrow x hn
    rw [hout] at hstays hcovered
    exact ih.succeeds hstays hcovered
  | narrowFails left e x n s _ hn hout ih =>
    have hstays := ih.narrow x hn
    rw [hout] at hstays
    exact ih.fails hstays
  | pushLevel left e _ ih =>
    exact ⟨ih.toRestorable.pushLevel, ih.remembers.pushLevel ih.wellFormed.toLayered,
      fun _ => (ih.covered rfl).pushLevel⟩
  | backtrack left failed e e' e₁ level _ hmay hout hleft hset ih =>
    rw [ih.backtrack_eq hmay.le, Except.ok.injEq] at hout
    subst hout
    have hback := ih.toRestorable.restored hmay.le
    -- nothing is waiting any more, so the engine is covered only because all are settled
    have hsettled := (ih.allSettled_iff hmay.le hleft).mpr hset
    exact ⟨hback, ih.remembers.restored hmay.le, fun _ => hsettled.covered hback.toTracked⟩
  | propagate left e e' _ hout ih =>
    have hsettles := (ih.covered rfl).settles hout
    exact ih.succeeds (ih.settles hsettles) (hsettles.covered (ih.covered rfl))
  | propagateFails left e e' _ hout ih =>
    obtain ⟨e₁, hruns, hbreaks⟩ := (ih.covered rfl).propagate_ends.emptied hout
    have hstays := ih.runs hruns
    exact ih.fails (hstays.trans (hstays.primed.breaks hbreaks))

theorem Covered.propagate_settles (h : e.Covered) :
    e.propagate.Ends (fun e' _ => e'.AllSettled) fun _ => True :=
  h.propagate_ends.imp (fun _ _ hsettles => hsettles.allSettled h) fun _ _ => trivial

/-- Propagation in a session ends at a common fixed point, unless it fails, and the check has
nothing to find. The same holds after going back to any level that was left with all propagators
settled. On any other level propagation does nothing and succeeds all the same, or the check stops
it. -/
theorem settled_iff_left_settled (h : Session left failed e) :
    (failed = false → e.propagate.Ends (fun e' _ => e'.AllSettled) fun _ => True) ∧
      ∀ level, e.MayReturn failed level → ∃ e₁ e', e.leftAt left level = some e₁ ∧
        e.backtrack level = .ok e' ∧ e'.store = e₁.store.forgetWoken ∧
        (e₁.AllSettled → e'.propagate.Ends (fun e' _ => e'.AllSettled) fun _ => True) ∧
        (¬e₁.AllSettled → ¬e'.AllSettled ∧
          e'.propagate = if e'.checked then .fault .notAtFixedPoint else .done e' ()) := by
  have hkept := h.kept
  refine ⟨fun hf => (hkept.covered hf).propagate_settles, fun level hmay => ?_⟩
  have hback := hkept.toRestorable.restored hmay.le
  obtain ⟨e₁, hleft, -, hrestored⟩ := hkept.remembers.leftAt hkept.wellFormed.toLayered hmay.le
  have hiff := hkept.allSettled_iff hmay.le hleft
  refine ⟨e₁, _, hleft, hkept.backtrack_eq hmay.le, hrestored, fun hset => ?_, fun hun => ?_⟩
  · exact ((hiff.mpr hset).covered hback.toTracked).propagate_settles
  · have hun' := fun hset => hun (hiff.mp hset)
    exact ⟨hun', hback.propagate_unsettled rfl hun'⟩

/-- A store with two summands, the first of them with the given values, and their sum. -/
def sumStore (first : Domain .int32) (model : Subscriptions) (waiting : List ConstraintId) :
    Store .int32 where
  vars := [
    ⟨0, ⟨first, 0, model, .empty, false⟩, []⟩,
    ⟨1, ⟨.intervals [⟨0, 10⟩], 0, model, .empty, false⟩, []⟩,
    ⟨2, ⟨.intervals [⟨0, 20⟩], 0, model, .empty, false⟩, []⟩]
  level := 0
  trail := []
  woken := WakeQueue.empty.enqueueAll waiting
  names := .empty
  options := .standard

def unpostedEngine : Engine .int32 :=
  ⟨sumStore (.intervals [⟨0, 10⟩]) .empty [], [], false, []⟩

def postedEngine : Engine .int32 :=
  ⟨sumStore (.intervals [⟨0, 10⟩]) ⟨[], [0], []⟩ [], [.plus 0 1 2], false, [0]⟩

/-- The posted engine after its first summand has been narrowed to 7, which the sum waits for. -/
def pendingEngine : Engine .int32 :=
  ⟨sumStore (.intervals [⟨7, 7⟩]) ⟨[], [0], []⟩ [0], [.plus 0 1 2], false, [0]⟩

theorem unpostedEngine_fresh : unpostedEngine.Fresh where
  regular := by
    have hadm : unpostedEngine.store.Within ValueType.int32.Admissible := by
      simp only [unpostedEngine, sumStore, Store.Within, Variable.values, List.forall_mem_cons,
        Domain.forall_mem_intervals, Interval.mem_mk, ValueType.admissible_int32]
      and_intros <;> grind
    refine Store.regular_root rfl rfl ?_ hadm
    simp [unpostedEngine, sumStore, Variable.stamp, Variable.values, Domain.Consistent,
      Runs.Consistent, Domain.isEmpty]
  root := rfl
  unregistered := rfl
  unwoken := rfl
  unposted := rfl

theorem postedEngine_allSettled : postedEngine.AllSettled := by
  intro p hp
  obtain rfl := List.mem_singleton.mp hp
  exact ⟨postedEngine.store, by decide +kernel, rfl⟩

/-- A session that fails on the first level, goes back, narrows the root and leaves it. -/
theorem pendingEngine_session : Session [pendingEngine] false pendingEngine.pushLevel := by
  have hpost : unpostedEngine.post (.plus 0 1 2) = .done postedEngine 0 := by decide +kernel
  have hbuiltin : (.plus 0 1 2 : Propagator .int32).Builtin := trivial
  have hposted := Session.post _ _ _ _ _ (.fresh _ unpostedEngine_fresh) hbuiltin hpost
  have hfailed := Session.narrowFails _ _ 0 (.equalTo 11) _ (.pushLevel _ _ hposted) trivial rfl
  have hback := Session.backtrack _ _ _ postedEngine postedEngine 0 hfailed Nat.one_pos rfl rfl
    postedEngine_allSettled
  exact .pushLevel _ _ (.narrow _ _ 0 (.equalTo 7) _ _ hback trivial rfl)

theorem pendingEngine_unsettled : ¬pendingEngine.AllSettled := by
  intro hset
  obtain ⟨s, hout, hdom⟩ := hset _ List.mem_cons_self
  have hchanges : (match (Propagator.plus 0 1 2).propagate pendingEngine.store with
      | .done s _ => decide (s.domains = pendingEngine.store.domains)
      | _ => true) = false := by
    decide +kernel
  rw [hout] at hchanges
  simp [hdom] at hchanges

theorem settled_iff_left_settled_pending :
    Session [pendingEngine] false pendingEngine.pushLevel ∧
      pendingEngine.pushLevel.propagate.Ends (fun e' _ => e'.AllSettled) (fun _ => True) ∧
        ∃ e', pendingEngine.pushLevel.backtrack 0 = .ok e' ∧ ¬e'.AllSettled ∧
          e'.propagate = .done e' () := by
  obtain ⟨hends, hreturn⟩ := settled_iff_left_settled pendingEngine_session
  obtain ⟨e₁, e', hleft, hback, -, -, hlost⟩ := hreturn 0 (Nat.zero_le 1)
  obtain rfl : pendingEngine = e₁ := Option.some_inj.mp hleft
  obtain ⟨hun, hpropagate⟩ := hlost pendingEngine_unsettled
  have hunchecked : e'.checked = false := by
    obtain rfl := Except.ok.inj hback
    rfl
  rw [hunchecked] at hpropagate
  exact ⟨pendingEngine_session, hends rfl, e', hback, hun, hpropagate⟩

end Engine
end FiniteDomains
