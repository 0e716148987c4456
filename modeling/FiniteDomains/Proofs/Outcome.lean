import FiniteDomains.Outcome

/-! What a computation leaves behind, with or without the certainty that it does not fault. -/
namespace FiniteDomains.Outcome
variable {σ τ α β : Type} {P P' : σ → Prop} {R : σ → α → Prop} {R' : σ → β → Prop} {s : σ} {a : α}
variable {F : Fault → Prop}

deriving instance DecidableEq for Outcome

/-- A computation leaves a state with a property, whether it succeeds or empties a domain. -/
def Leaves (P : σ → Prop) : Outcome σ α → Prop
  | .done s _ => P s
  | .emptied s => P s
  | .fault _ => True

/-- A computation ends with a result, or by emptying a domain, with a property in either case. -/
def Ends (R : σ → α → Prop) (P : σ → Prop) : Outcome σ α → Prop
  | .done s a => R s a
  | .emptied s => P s
  | .fault _ => False

/-- A computation ends like that, or else with a fault of some kind. -/
def EndsUnless (F : Fault → Prop) (R : σ → α → Prop) (P : σ → Prop) : Outcome σ α → Prop
  | .done s a => R s a
  | .emptied s => P s
  | .fault cause => F cause

def left? : Outcome σ α → Option σ
  | .done s _ => some s
  | .emptied s => some s
  | .fault _ => none

theorem Leaves.of_left? {outcome : Outcome σ α} (h : outcome.Leaves P)
    (hleft : outcome.left? = some s) : P s := by
  cases outcome with
  | done s' a => cases hleft; exact h
  | emptied s' => cases hleft; exact h
  | fault => cases hleft

theorem Leaves.imp {outcome : Outcome σ α} (h : outcome.Leaves P) (hP : ∀ s, P s → P' s) :
    outcome.Leaves P' := by
  cases outcome with
  | done s a => exact hP s h
  | emptied s => exact hP s h
  | fault => trivial

theorem Leaves.andThen {outcome : Outcome σ α} {next : σ → α → Outcome σ β}
    (h : outcome.Leaves P) (hnext : ∀ s a, P s → (next s a).Leaves P) :
    (outcome.andThen next).Leaves P := by
  cases outcome with
  | done s a => exact hnext s a h
  | emptied s => exact h
  | fault => trivial

theorem Leaves.resume {Q : τ → Prop} {outcome : Outcome σ α} {next : σ → Option α → Outcome τ β}
    (h : outcome.Leaves P) (hnext : ∀ s a, P s → (next s a).Leaves Q) :
    (outcome.resume next).Leaves Q := by
  cases outcome with
  | done s a => exact hnext s _ h
  | emptied s => exact hnext s _ h
  | fault => trivial

theorem Ends.imp {Q : σ → α → Prop} {outcome : Outcome σ α} (h : outcome.Ends R P)
    (hR : ∀ s a, R s a → Q s a) (hP : ∀ s, P s → P' s) : outcome.Ends Q P' := by
  cases outcome with
  | done s a => exact hR s a h
  | emptied s => exact hP s h
  | fault => exact h

theorem Ends.andThen {outcome : Outcome σ α} {next : σ → α → Outcome σ β} (h : outcome.Ends R P)
    (hnext : ∀ s a, R s a → (next s a).Ends R' P') (hP : ∀ s, P s → P' s) :
    (outcome.andThen next).Ends R' P' := by
  cases outcome with
  | done s a => exact hnext s a h
  | emptied s => exact hP s h
  | fault => exact h

theorem EndsUnless.imp {Q : σ → α → Prop} {outcome : Outcome σ α} (h : outcome.EndsUnless F R P)
    (hR : ∀ s a, R s a → Q s a) (hP : ∀ s, P s → P' s) : outcome.EndsUnless F Q P' := by
  cases outcome with
  | done s a => exact hR s a h
  | emptied s => exact hP s h
  | fault => exact h

theorem EndsUnless.andThen {outcome : Outcome σ α} {next : σ → α → Outcome σ β}
    (h : outcome.EndsUnless F R P) (hnext : ∀ s a, R s a → (next s a).EndsUnless F R' P')
    (hP : ∀ s, P s → P' s) : (outcome.andThen next).EndsUnless F R' P' := by
  cases outcome with
  | done s a => exact hnext s a h
  | emptied s => exact hP s h
  | fault => exact h

theorem Ends.unless {outcome : Outcome σ α} (h : outcome.Ends R P) :
    outcome.EndsUnless F R P := by
  cases outcome with
  | done s a => exact h
  | emptied s => exact h
  | fault => exact absurd h id

theorem EndsUnless.ends {outcome : Outcome σ α}
    (h : outcome.EndsUnless (fun _ => False) R P) : outcome.Ends R P := by
  cases outcome with
  | done s a => exact h
  | emptied s => exact h
  | fault => exact h

theorem EndsUnless.done {outcome : Outcome σ α} (h : outcome.EndsUnless F R P)
    (hout : outcome = .done s a) : R s a := by
  rwa [hout] at h

theorem EndsUnless.emptied {outcome : Outcome σ α} (h : outcome.EndsUnless F R P)
    (hout : outcome = .emptied s) : P s := by
  rwa [hout] at h

theorem EndsUnless.fault {outcome : Outcome σ α} {cause : Fault} (h : outcome.EndsUnless F R P)
    (hout : outcome = .fault cause) : F cause := by
  rwa [hout] at h

theorem Ends.leaves {outcome : Outcome σ α} (h : outcome.Ends (fun s _ => P s) P) :
    outcome.Leaves P := by
  cases outcome with
  | done s a => exact h
  | emptied s => exact h
  | fault => trivial

theorem Ends.done {outcome : Outcome σ α} (h : outcome.Ends R P) (hout : outcome = .done s a) :
    R s a := by
  rwa [hout] at h

theorem Ends.emptied {outcome : Outcome σ α} (h : outcome.Ends R P)
    (hout : outcome = .emptied s) : P s := by
  rwa [hout] at h

theorem Ends.ne_fault {outcome : Outcome σ α} (h : outcome.Ends R P) (cause : Fault) :
    outcome ≠ .fault cause := by
  intro hout
  rwa [hout] at h

/-! ### Two computations side by side -/

/-- Two computations end the same way: with one result or an emptied domain, in related states, or
with one fault. -/
inductive Matches (S : σ → τ → Prop) : Outcome σ α → Outcome τ α → Prop
  | done {s : σ} {s' : τ} (a : α) : S s s' → Matches S (.done s a) (.done s' a)
  | emptied {s : σ} {s' : τ} : S s s' → Matches S (.emptied s) (.emptied s')
  | fault (cause : Fault) : Matches S (.fault cause) (.fault cause)

theorem Matches.resume {ρ ρ' : Type} {S : σ → τ → Prop} {S' : ρ → ρ' → Prop}
    {outcome : Outcome σ α} {outcome' : Outcome τ α} {next : σ → Option α → Outcome ρ β}
    {next' : τ → Option α → Outcome ρ' β} (h : outcome.Matches S outcome')
    (hnext : ∀ s s' a, S s s' → (next s a).Matches S' (next' s' a)) :
    (outcome.resume next).Matches S' (outcome'.resume next') := by
  cases h with
  | done a h => exact hnext _ _ _ h
  | emptied h => exact hnext _ _ _ h
  | fault cause => exact .fault cause

theorem Matches.andThen {S : σ → τ → Prop} {outcome : Outcome σ α} {outcome' : Outcome τ α}
    {next : σ → α → Outcome σ β} {next' : τ → α → Outcome τ β} (h : outcome.Matches S outcome')
    (hnext : ∀ s s' a, S s s' → (next s a).Matches S (next' s' a)) :
    (outcome.andThen next).Matches S (outcome'.andThen next') := by
  cases h with
  | done a h => exact hnext _ _ a h
  | emptied h => exact .emptied h
  | fault cause => exact .fault cause

theorem Matches.mapState {ρ ρ' : Type} {S : σ → τ → Prop} {S' : ρ → ρ' → Prop}
    {outcome : Outcome σ α} {outcome' : Outcome τ α} {f : σ → ρ} {f' : τ → ρ'}
    (h : outcome.Matches S outcome') (hf : ∀ s s', S s s' → S' (f s) (f' s')) :
    (outcome.mapState f).Matches S' (outcome'.mapState f') := by
  cases h with
  | done a h => exact .done a (hf _ _ h)
  | emptied h => exact .emptied (hf _ _ h)
  | fault cause => exact .fault cause

end FiniteDomains.Outcome

namespace FiniteDomains
variable {α α' β β' : Type} {R : α → α' → Prop} {S : β → β' → Prop}

/-- Two answers are related, or both are faults and of one cause. -/
inductive Agree (R : α → α' → Prop) : Except Fault α → Except Fault α' → Prop
  | ok {a : α} {a' : α'} : R a a' → Agree R (.ok a) (.ok a')
  | error (cause : Fault) : Agree R (.error cause) (.error cause)

theorem agree_eq_iff {r r' : Except Fault α} : Agree Eq r r' ↔ r = r' := by
  constructor
  · intro h
    cases h with
    | ok heq => rw [heq]
    | error => rfl
  · rintro rfl
    cases r with
    | ok a => exact .ok rfl
    | error cause => exact .error cause

theorem Agree.imp {R' : α → α' → Prop} {r : Except Fault α} {r' : Except Fault α'}
    (h : Agree R r r') (hR : ∀ a a', R a a' → R' a a') : Agree R' r r' := by
  cases h with
  | ok h => exact .ok (hR _ _ h)
  | error cause => exact .error cause

theorem Agree.given {r : Except Fault α} {r' : Except Fault α'} (h : Agree R r r') :
    Agree (fun a a' => R a a' ∧ r = .ok a ∧ r' = .ok a') r r' := by
  cases h with
  | ok h => exact .ok ⟨h, rfl, rfl⟩
  | error cause => exact .error cause

theorem Agree.map_right {r : Except Fault α} {r' : Except Fault α'} {f : α' → β'}
    {S : α → β' → Prop} (h : Agree R r r') (hf : ∀ a a', R a a' → S a (f a')) :
    Agree S r (r'.map f) := by
  cases h with
  | ok h => exact .ok (hf _ _ h)
  | error cause => exact .error cause

theorem Agree.through {γ : Type} {S : α → γ → Prop} {r : Except Fault α} {r' : Except Fault α'}
    {r'' : Except Fault γ} (h : Agree R r r') (h' : Agree S r r'') :
    Agree (fun b c => ∃ a, R a b ∧ S a c) r' r'' := by
  cases h with
  | ok h => cases h' with
    | ok h' => exact .ok ⟨_, h, h'⟩
  | error cause => cases h' with
    | error => exact .error cause

theorem Agree.bind {r : Except Fault α} {r' : Except Fault α'} {next : α → Except Fault β}
    {next' : α' → Except Fault β'} (h : Agree R r r')
    (hnext : ∀ a a', R a a' → Agree S (next a) (next' a')) :
    Agree S (r >>= next) (r' >>= next') := by
  cases h with
  | ok h => exact hnext _ _ h
  | error cause => exact .error cause

/-! ### Calculations that can only come to inverted ends -/

/-- A fault about the inverted ends of an interval. -/
def Fault.Malformed (cause : Fault) : Prop := ∃ lo hi, cause = .malformedInterval lo hi

/-- A calculation with no other faults than inverted ends. -/
def OnlyMalformed (result : Except Fault α) : Prop :=
  ∀ cause, result = .error cause → cause.Malformed

namespace OnlyMalformed
variable {result : Except Fault α}

theorem ok (a : α) : OnlyMalformed (.ok a) := by
  intro cause h
  cases h

theorem bind {next : α → Except Fault β} (h : OnlyMalformed result)
    (hnext : ∀ a, OnlyMalformed (next a)) : OnlyMalformed (result >>= next) := by
  intro cause hcause
  cases result with
  | ok a => exact hnext a cause hcause
  | error cause' =>
    cases hcause
    exact h _ rfl

theorem map (h : OnlyMalformed result) (f : α → β) : OnlyMalformed (result.map f) := by
  intro cause hcause
  cases result with
  | ok a => cases hcause
  | error cause' =>
    cases hcause
    exact h _ rfl

end OnlyMalformed
end FiniteDomains
