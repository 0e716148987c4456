import FiniteDomains.Proofs.Store.Backtracking

/-! Looking up names. Every variable keeps the name that it was created with, and a name leads to
the last variable created with it. So names resolve both ways as long as no two variables share
one. -/
namespace FiniteDomains

section
variable {κ β : Type} [DecidableEq κ] {key other : κ} {bindings : List (κ × β)}

theorem lookup_unbind : (unbind key bindings).lookup other =
    if other = key then none else bindings.lookup other := by
  induction bindings with
  | nil => simp [unbind]
  | cons binding bindings ih =>
    obtain ⟨bound, value⟩ := binding
    simp only [unbind, List.filter_cons, List.lookup_cons] at ih ⊢
    by_cases hbound : bound = key
    · simp only [hbound, ne_eq, not_true_eq_false, decide_false, Bool.false_eq_true, if_false, ih]
      split
      · rfl
      · next hother => rw [beq_eq_false_iff_ne.mpr hother]
    · simp only [ne_eq, hbound, not_false_eq_true, decide_true, if_true, List.lookup_cons, ih]
      by_cases hother : other = bound
      · simp [hother, hbound]
      · simp [beq_eq_false_iff_ne.mpr hother]

theorem lookup_rebind {value : β} : (rebind key value bindings).lookup other =
    if other = key then some value else bindings.lookup other := by
  rw [rebind, List.lookup_cons, lookup_unbind]
  by_cases hother : other = key
  · simp [hother]
  · simp [beq_eq_false_iff_ne.mpr hother, hother]

end

namespace VariableNames
variable {names : VariableNames} {x : VarId} {name other : String} {count : Nat}

theorem nameOf_add (names : VariableNames) (x y : VarId) (name : String) :
    (names.add x name).nameOf y = if y = x then some name else names.nameOf y :=
  lookup_rebind

theorem varNamed_add (names : VariableNames) (x : VarId) (name other : String) :
    (names.add x name).varNamed other =
      if other = name then some x
      else if names.nameOf x = some other then none else names.varNamed other := by
  simp only [varNamed, add, lookup_rebind]
  congr 1
  split
  · next previous hprevious =>
    rw [lookup_unbind, hprevious]
    exact if_congr (by rw [Option.some_inj, eq_comm]) rfl rfl
  · next hnone => simp [hnone]

/-- Only variables before a position have names, and a name leads to the last one that has it. -/
structure LeadToLast (names : VariableNames) (count : Nat) : Prop where
  lt : ∀ x name, names.nameOf x = some name → x < count
  varNamed_iff : ∀ x name, names.varNamed name = some x ↔
    names.nameOf x = some name ∧ ∀ y, x < y → names.nameOf y ≠ some name

theorem leadToLast_empty : empty.LeadToLast 0 where
  lt := nofun
  varNamed_iff := fun _ _ => iff_of_false nofun fun h => nomatch h.1

theorem LeadToLast.nameOf_count (h : names.LeadToLast count) : names.nameOf count = none :=
  Option.eq_none_iff_forall_ne_some.mpr fun name hname => Nat.lt_irrefl _ (h.lt count name hname)

theorem LeadToLast.mono (h : names.LeadToLast count) {count' : Nat} (hle : count ≤ count') :
    names.LeadToLast count' where
  lt := fun x name hname => Nat.lt_of_lt_of_le (h.lt x name hname) hle
  varNamed_iff := h.varNamed_iff

theorem LeadToLast.nameOf_add_iff (h : names.LeadToLast count) :
    (names.add count name).nameOf x = some other ↔
      names.nameOf x = some other ∨ x = count ∧ name = other := by
  rw [nameOf_add]
  split
  · next heq => simp [heq, h.nameOf_count]
  · next hne => simp [hne]

theorem LeadToLast.add (h : names.LeadToLast count) (name : String) :
    (names.add count name).LeadToLast (count + 1) where
  lt := by
    intro x other hother
    rcases h.nameOf_add_iff.mp hother with hold | ⟨rfl, -⟩
    · exact Nat.lt_succ_of_lt (h.lt x other hold)
    · exact Nat.lt_succ_self x
  varNamed_iff := by
    intro x other
    rw [varNamed_add, h.nameOf_count]
    simp only [ne_eq, h.nameOf_add_iff]
    by_cases hname : name = other
    · subst hname
      rw [if_pos rfl, Option.some_inj]
      constructor
      · rintro rfl
        refine ⟨.inr ⟨rfl, rfl⟩, ?_⟩
        rintro y hy (hold | ⟨rfl, -⟩)
        · exact Nat.lt_asymm hy (h.lt y name hold)
        · exact Nat.lt_irrefl y hy
      · rintro ⟨hold | ⟨rfl, -⟩, hlast⟩
        · exact absurd (.inr ⟨rfl, rfl⟩) (hlast count (h.lt x name hold))
        · rfl
    · rw [if_neg (Ne.symm hname), if_neg (Option.some_ne_none other).symm]
      simpa [hname] using h.varNamed_iff x other

end VariableNames

namespace Store
variable {t : ValueType} {α : Type} {s s' : Store t} {reply : StoreReply}
variable {request : StoreRequest t} {requests : List (StoreRequest t)} {replies : List StoreReply}

theorem Layered.update_names (h : s.Layered) (x : VarId)
    (change : Variable t → Nat → Outcome (Variable t) α) :
    (s.update x change).Leaves fun s' => s'.names = s.names := by
  cases hv : s.vars[x]? with
  | none => rw [update_missing hv]; trivial
  | some v =>
    rw [h.update_eq hv]
    cases change v s.level with
    | done => exact rfl
    | emptied => exact rfl
    | fault => trivial

theorem wake_names (s : Store t) (x : VarId) (change : Change) :
    (s.wake x change).names = s.names := by
  obtain ⟨q, hq⟩ := wake_eq s x change
  rw [hq]

theorem Layered.perform_names (h : s.Layered) (hp : s.perform request = .ok (reply, s')) :
    (∃ lo hi name, request = .addNamedRange lo hi name ∧ reply = .added s.vars.length ∧
        s'.vars.length = s.vars.length + 1 ∧ s'.names = s.names.add s.vars.length name) ∨
      (∀ lo hi name, request ≠ .addNamedRange lo hi name) ∧ s'.names = s.names := by
  have added {x : VarId} {d : Domain t} {s₁ : Store t} (ha : s.addVariable d = .ok (x, s₁)) :
      x = s.vars.length ∧ s₁.vars.length = s.vars.length + 1 ∧ s₁.names = s.names := by
    obtain ⟨-, v, -, rfl, rfl⟩ := addVariable_ok ha
    exact ⟨rfl, by simp, rfl⟩
  cases request with
  | addNamedRange lo hi name =>
    obtain ⟨x, rfl, ha⟩ := adding_ok hp
    obtain ⟨s₁, hr, rfl⟩ := addNamedRange_ok ha
    obtain ⟨-, d, -, hd⟩ := addRange_ok hr
    obtain ⟨rfl, hlength, hnames⟩ := added hd
    exact .inl ⟨lo, hi, name, rfl, rfl, hlength, by rw [hnames]⟩
  | addRange lo hi =>
    obtain ⟨x, -, ha⟩ := adding_ok hp
    obtain ⟨-, d, -, hd⟩ := addRange_ok ha
    exact .inr ⟨by simp, (added hd).2.2⟩
  | addValues values =>
    obtain ⟨x, -, ha⟩ := adding_ok hp
    exact .inr ⟨by simp, (added ha).2.2⟩
  | addVariable d =>
    obtain ⟨x, -, ha⟩ := adding_ok hp
    exact .inr ⟨by simp, (added ha).2.2⟩
  | narrow x narrowing =>
    have hleaves : (s.narrow x narrowing).Leaves fun s' => s'.names = s.names :=
      (h.update_names x _).andThen fun s₁ change hnames => (wake_names s₁ x change).trans hnames
    exact .inr ⟨by simp, replying_ok hleaves hp⟩
  | subscribe x c trigger => exact .inr ⟨by simp, replying_ok (h.update_names x _) hp⟩
  | unsubscribe x c => exact .inr ⟨by simp, replying_ok (h.update_names x _) hp⟩
  | activate x c => exact .inr ⟨by simp, replying_ok (h.update_names x _) hp⟩
  | deactivate x c => exact .inr ⟨by simp, replying_ok (h.update_names x _) hp⟩
  | deactivateAt x position => exact .inr ⟨by simp, replying_ok (h.update_names x _) hp⟩
  | pushLevel => cases hp; exact .inr ⟨by simp, rfl⟩
  | backtrack level =>
    simp only [Store.perform] at hp
    split at hp
    · next s₁ hb =>
      cases hp
      obtain ⟨-, rfl⟩ := (backtrack_ok_iff h).mp hb
      exact .inr ⟨by simp, rfl⟩
    · cases hp
  | popWoken =>
    cases hp
    obtain ⟨q, hq⟩ := popWoken_eq s
    exact .inr ⟨by simp, by rw [hq]⟩
  | forgetWoken => cases hp; exact .inr ⟨by simp, rfl⟩

theorem Layered.perform_leadToLast (h : s.Layered) (hnames : s.names.LeadToLast s.vars.length)
    (hp : s.perform request = .ok (reply, s')) : s'.names.LeadToLast s'.vars.length := by
  rcases h.perform_names hp with ⟨lo, hi, name, -, -, hlength, hadd⟩ | ⟨-, hkept⟩
  · rw [hlength, hadd]
    exact hnames.add name
  · rw [hkept]
    exact hnames.mono (h.perform_length hp)

/-- A request that is replied to like this creates a variable with a name. -/
def Names (x : VarId) (name : String) (entry : StoreRequest t × StoreReply) : Prop :=
  ∃ lo hi, entry = (.addNamedRange lo hi name, .added x)

/-- One of some requests, with their replies, has created a variable with a name. -/
def CreatedAs (x : VarId) (name : String) (requests : List (StoreRequest t))
    (replies : List StoreReply) : Prop :=
  ∃ entry ∈ requests.zip replies, Names x name entry

theorem Layered.perform_nameOf (h : s.Layered) (hnames : s.names.LeadToLast s.vars.length)
    (hp : s.perform request = .ok (reply, s')) (x : VarId) (name : String) :
    s'.nameOf x = some name ↔ s.nameOf x = some name ∨ Names x name (request, reply) := by
  rcases h.perform_names hp with ⟨lo, hi, name', rfl, rfl, -, hadd⟩ | ⟨hother, hkept⟩
  · rw [nameOf, nameOf, hadd, hnames.nameOf_add_iff]
    refine or_congr_right ⟨?_, ?_⟩
    · rintro ⟨rfl, rfl⟩
      exact ⟨lo, hi, rfl⟩
    · rintro ⟨lo', hi', heq⟩
      cases heq
      exact ⟨rfl, rfl⟩
  · rw [nameOf, nameOf, hkept]
    refine ⟨.inl, ?_⟩
    rintro (hname | ⟨lo, hi, heq⟩)
    · exact hname
    · exact absurd (Prod.mk.inj heq).1 (hother lo hi name)

theorem Layered.performAll_names (h : s.Layered) (hnames : s.names.LeadToLast s.vars.length)
    (hrun : s.performAll requests = .ok (replies, s')) :
    s'.names.LeadToLast s'.vars.length ∧ ∀ x name,
      s'.nameOf x = some name ↔ s.nameOf x = some name ∨ CreatedAs x name requests replies := by
  induction requests generalizing s replies with
  | nil =>
    cases hrun
    exact ⟨hnames, fun x name => by simp [CreatedAs]⟩
  | cons request requests ih =>
    obtain ⟨reply, s₁, rest, hp, hrest, rfl⟩ := performAll_cons hrun
    obtain ⟨hnames', hall⟩ := ih (h.perform hp) (h.perform_leadToLast hnames hp) hrest
    refine ⟨hnames', fun x name => ?_⟩
    simp only [hall, h.perform_nameOf hnames hp, or_assoc, CreatedAs, List.zip_cons_cons,
      List.mem_cons, exists_eq_or_imp]

/-- After every run a variable has the name that it was created with, and a name leads to the last
variable created with it. Names resolve both ways if and only if no two variables were created with
the same name. -/
theorem names_resolve_iff {options : StoreOptions}
    (hrun : (empty options).performAll requests = .ok (replies, s)) :
    (∀ x name, s.nameOf x = some name ↔ CreatedAs x name requests replies) ∧
      (∀ x name, s.varNamed name = some x ↔ CreatedAs x name requests replies ∧
        ∀ y, x < y → ¬CreatedAs y name requests replies) ∧
      ((∀ x name, s.nameOf x = some name ↔ s.varNamed name = some x) ↔
        ∀ x y name, CreatedAs x name requests replies → CreatedAs y name requests replies →
          x = y) := by
  obtain ⟨hlead, hall⟩ :=
    (layered_empty options).performAll_names VariableNames.leadToLast_empty hrun
  have hname (x : VarId) (name : String) :
      s.nameOf x = some name ↔ CreatedAs x name requests replies :=
    (hall x name).trans (or_iff_right nofun)
  have hvar (x : VarId) (name : String) : s.varNamed name = some x ↔
      CreatedAs x name requests replies ∧ ∀ y, x < y → ¬CreatedAs y name requests replies := by
    rw [varNamed, hlead.varNamed_iff]
    simp only [ne_eq, ← hname]
    rfl
  refine ⟨hname, hvar, fun hboth x y name hx hy => ?_, fun hunique x name => ?_⟩
  · have hx' := (hboth x name).mp ((hname x name).mpr hx)
    have hy' := (hboth y name).mp ((hname y name).mpr hy)
    exact Option.some_inj.mp (hx'.symm.trans hy')
  · rw [hname, hvar, iff_self_and]
    exact fun hx y hlt hy => Nat.ne_of_lt hlt (hunique x y name hx hy)

def namesakeRequests : List (StoreRequest .int32) :=
  [.addNamedRange 0 3 "a", .addRange 0 5, .addNamedRange 1 4 "a"]

def namesakes : Store .int32 where
  vars := [
    ⟨0, ⟨.intervals [⟨0, 3⟩], 0, .empty, .empty, false⟩, []⟩,
    ⟨1, ⟨.intervals [⟨0, 5⟩], 0, .empty, .empty, false⟩, []⟩,
    ⟨2, ⟨.intervals [⟨1, 4⟩], 0, .empty, .empty, false⟩, []⟩]
  level := 0
  trail := []
  woken := .empty
  names := ⟨[(2, "a"), (0, "a")], [("a", 2)]⟩
  options := .standard

theorem names_resolve_iff_namesakes :
    (empty .standard).performAll namesakeRequests =
        .ok ([.added 0, .added 1, .added 2], namesakes) ∧
      namesakes.nameOf 0 = some "a" ∧ namesakes.nameOf 1 = none ∧
      namesakes.nameOf 2 = some "a" ∧ namesakes.varNamed "a" = some 2 := by
  have hrun : (empty .standard).performAll namesakeRequests =
      .ok ([.added 0, .added 1, .added 2], namesakes) := rfl
  obtain ⟨hname, hvar, -⟩ := names_resolve_iff hrun
  have hlast : CreatedAs 2 "a" namesakeRequests [.added 0, .added 1, .added 2] :=
    ⟨_, .tail _ (.tail _ (.head _)), 1, 4, rfl⟩
  refine ⟨hrun, (hname 0 "a").mpr ⟨_, .head _, 0, 3, rfl⟩, rfl,
    (hname 2 "a").mpr hlast, (hvar 2 "a").mpr ⟨hlast, ?_⟩⟩
  rintro y hy ⟨entry, hmem, lo, hi, rfl⟩
  simp only [namesakeRequests, List.zip_cons_cons, List.zip_nil_left, List.mem_cons,
    Prod.mk.injEq, StoreRequest.addNamedRange.injEq, StoreReply.added.injEq, reduceCtorEq,
    List.not_mem_nil, false_and, and_true, or_false, false_or] at hmem
  rcases hmem with ⟨-, rfl⟩ | ⟨-, rfl⟩ <;> exact absurd hy (by decide)

theorem namesakes_resolve_once :
    (empty .standard).performAll namesakeRequests =
        .ok ([.added 0, .added 1, .added 2], namesakes) ∧
      ¬∀ x name, namesakes.nameOf x = some name ↔ namesakes.varNamed name = some x :=
  ⟨rfl, fun hboth => absurd ((hboth 0 "a").mp rfl) (by decide)⟩

end Store
end FiniteDomains
