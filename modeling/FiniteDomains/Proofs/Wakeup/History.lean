import Mathlib.Data.List.Induction

/-! Sequences of requests with what they are replied to, and what stands at the end of one: what
some entry has made and no later entry has undone. -/
namespace FiniteDomains

section
variable {ε : Type} {history : List ε} {made : List ε → ε → Prop} {undone : ε → Prop} {entry : ε}

/-- An entry of the history has made something, which the entries before it may bear on, and none
after it has undone that. -/
def Stands (made : List ε → ε → Prop) (undone : ε → Prop) (history : List ε) : Prop :=
  ∃ before entry after, history = before ++ entry :: after ∧ made before entry ∧
    ∀ later ∈ after, ¬undone later

theorem not_stands_nil : ¬Stands made undone [] := by
  rintro ⟨before, entry, after, hsplit, -⟩
  simp at hsplit

theorem split_concat {before after : List ε} {other : ε}
    (h : history ++ [entry] = before ++ other :: after) :
    (before = history ∧ other = entry ∧ after = []) ∨
      ∃ after', after = after' ++ [entry] ∧ history = before ++ other :: after' := by
  rcases List.eq_nil_or_concat after with rfl | ⟨after', last, rfl⟩
  · obtain ⟨hhistory, hentry⟩ := List.append_inj' h rfl
    exact .inl ⟨hhistory.symm, (List.singleton_inj.mp hentry).symm, rfl⟩
  · have hlast : history ++ [entry] = (before ++ other :: after') ++ [last] := by simpa using h
    obtain ⟨hhistory, hentry⟩ := List.append_inj' hlast rfl
    obtain rfl := List.singleton_inj.mp hentry
    exact .inr ⟨after', by simp, hhistory⟩

theorem stands_concat : Stands made undone (history ++ [entry]) ↔
    made history entry ∨ Stands made undone history ∧ ¬undone entry := by
  constructor
  · rintro ⟨before, other, after, hsplit, hmade, hkept⟩
    rcases split_concat hsplit with ⟨rfl, rfl, rfl⟩ | ⟨after', rfl, hhistory⟩
    · exact .inl hmade
    · refine .inr ⟨⟨before, other, after', hhistory, hmade, fun later hlater => ?_⟩, ?_⟩
      · exact hkept later (List.mem_append_left _ hlater)
      · exact hkept entry (List.mem_append_right _ List.mem_cons_self)
  · rintro (hmade | ⟨⟨before, other, after, rfl, hmade, hkept⟩, hentry⟩)
    · exact ⟨history, entry, [], rfl, hmade, by simp⟩
    · refine ⟨before, other, after ++ [entry], by simp, hmade, fun later hlater => ?_⟩
      rcases List.mem_append.mp hlater with hlater | hlater
      · exact hkept later hlater
      · exact List.mem_singleton.mp hlater ▸ hentry

end

section
variable {σ ρ α : Type} {perform : σ → ρ → α × σ} {start : σ} {requests : List ρ} {request : ρ}

/-- The requests of a sequence with their replies, and the state that they leave. -/
def recordAll (perform : σ → ρ → α × σ) (start : σ) (requests : List ρ) : List (ρ × α) × σ :=
  requests.foldl (fun (record : List (ρ × α) × σ) request =>
    let answered := perform record.2 request
    (record.1 ++ [(request, answered.1)], answered.2)) ([], start)

theorem recordAll_concat : recordAll perform start (requests ++ [request]) =
    ((recordAll perform start requests).1 ++
        [(request, (perform (recordAll perform start requests).2 request).1)],
      (perform (recordAll perform start requests).2 request).2) := by
  simp [recordAll, List.foldl_append]

theorem recordAll_keeps {P : List (ρ × α) → σ → Prop} (hstart : P [] start)
    (hstep : ∀ history s request, P history s →
      P (history ++ [(request, (perform s request).1)]) (perform s request).2)
    (requests : List ρ) :
    P (recordAll perform start requests).1 (recordAll perform start requests).2 := by
  induction requests using List.reverseRecOn with
  | nil => exact hstart
  | append_singleton requests request ih =>
    rw [recordAll_concat]
    exact hstep _ _ request ih

end
end FiniteDomains
