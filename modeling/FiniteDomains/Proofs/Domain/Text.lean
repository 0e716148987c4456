import FiniteDomains.Proofs.Domain.Basic

/-! Texts stand for sets. A value is written with digits and a sign, so that the dots of a range and
the commas between ranges divide a text in one way only, and every representation is written by the
runs of its set. -/
namespace FiniteDomains
variable {t : ValueType}

/-! ### Marks and separators -/

section
variable {α : Type} {mark : α} {sep : List α} {xs ys : List (List α)}

theorem append_mark_inj {before before' behind behind' : List α} (hmark : mark ∉ before)
    (hmark' : mark ∉ before') (h : before ++ mark :: behind = before' ++ mark :: behind') :
    before = before' ∧ behind = behind' := by
  induction before generalizing before' with
  | nil =>
    cases before' with
    | nil => exact ⟨rfl, (List.cons.inj h).2⟩
    | cons a before' => exact absurd (List.mem_cons.mpr (.inl (List.cons.inj h).1)) hmark'
  | cons a before ih =>
    cases before' with
    | nil => exact absurd (List.mem_cons.mpr (.inl (List.cons.inj h).1.symm)) hmark
    | cons b before' =>
      obtain ⟨rfl, hrest⟩ := List.cons.inj h
      have hmarks := mt (List.mem_cons_of_mem a) hmark
      obtain ⟨rfl, hbehind⟩ := ih hmarks (mt (List.mem_cons_of_mem a) hmark') hrest
      exact ⟨rfl, hbehind⟩

theorem intercalate_append_sep (x : List α) (xs : List (List α)) :
    sep.intercalate (x :: xs) ++ sep = (x :: xs).flatMap fun x => x ++ sep := by
  induction xs generalizing x with
  | nil => simp
  | cons y xs ih =>
    rw [List.intercalate_cons_cons, List.append_assoc, ih]
    simp only [List.flatMap_cons]

theorem flatMap_sep_inj (hxs : ∀ x ∈ xs, mark ∉ x) (hys : ∀ y ∈ ys, mark ∉ y)
    (h : (xs.flatMap fun x => x ++ mark :: sep) = ys.flatMap fun y => y ++ mark :: sep) :
    xs = ys := by
  induction xs generalizing ys with
  | nil =>
    cases ys with
    | nil => rfl
    | cons y ys => simp at h
  | cons x xs ih =>
    obtain ⟨hx, hrest⟩ := List.forall_mem_cons.mp hxs
    cases ys with
    | nil => simp at h
    | cons y ys =>
      obtain ⟨hy, hrest'⟩ := List.forall_mem_cons.mp hys
      rw [List.flatMap_cons, List.flatMap_cons, List.append_assoc, List.append_assoc] at h
      obtain ⟨rfl, hbehind⟩ := append_mark_inj hx hy h
      rw [ih hrest hrest' ((List.append_right_inj sep).mp hbehind)]

theorem intercalate_ne_nil {x : List α} (hx : x ≠ []) (xs : List (List α)) :
    sep.intercalate (x :: xs) ≠ [] := by
  cases xs with
  | nil => rwa [List.intercalate_singleton]
  | cons y xs => simp [List.intercalate_cons_cons, hx]

theorem intercalate_inj (hxs : ∀ x ∈ xs, x ≠ [] ∧ mark ∉ x) (hys : ∀ y ∈ ys, y ≠ [] ∧ mark ∉ y)
    (h : (mark :: sep).intercalate xs = (mark :: sep).intercalate ys) : xs = ys := by
  cases xs with
  | nil =>
    cases ys with
    | nil => rfl
    | cons y ys => exact absurd h.symm (intercalate_ne_nil (hys y List.mem_cons_self).1 ys)
  | cons x xs =>
    cases ys with
    | nil => exact absurd h (intercalate_ne_nil (hxs x List.mem_cons_self).1 xs)
    | cons y ys =>
      have hends : ((x :: xs).flatMap fun x => x ++ mark :: sep) =
          (y :: ys).flatMap fun y => y ++ mark :: sep := by
        rw [← intercalate_append_sep, ← intercalate_append_sep, h]
      exact flatMap_sep_inj (fun x hx => (hxs x hx).2) (fun y hy => (hys y hy).2) hends

end

/-! ### Values -/

theorem toDigits_inj {m n : Nat} (h : Nat.toDigits 10 m = Nat.toDigits 10 n) : m = n := by
  rw [← Nat.ofDigitChars_ten_toDigits (n := m), h, Nat.ofDigitChars_ten_toDigits]

theorem isDigit_of_mem_digits {n : Nat} {c : Char} (h : c ∈ Nat.toDigits 10 n) : c.isDigit = true :=
  Nat.isDigit_of_mem_toDigits (by decide) (by decide) h

theorem mem_valueChars {v : Int} {c : Char} (h : c ∈ valueChars v) :
    c = '-' ∨ c.isDigit = true := by
  cases v with
  | ofNat n => exact .inr (isDigit_of_mem_digits h)
  | negSucc n =>
    rcases List.mem_cons.mp h with rfl | h
    · exact .inl rfl
    · exact .inr (isDigit_of_mem_digits h)

theorem not_mem_valueChars {c : Char} (hsign : c ≠ '-') (hdigit : c.isDigit = false) (v : Int) :
    c ∉ valueChars v := by
  intro h
  rcases mem_valueChars h with heq | heq
  · exact hsign heq
  · exact absurd heq (by simp [hdigit])

theorem valueChars_ne_nil (v : Int) : valueChars v ≠ [] := by
  cases v with
  | ofNat n => exact Nat.toDigits_ne_nil
  | negSucc n => exact List.cons_ne_nil _ _

theorem toDigits_ne_sign {n : Nat} {rest : List Char} : Nat.toDigits 10 n ≠ '-' :: rest := by
  intro h
  have hsign : '-' ∈ Nat.toDigits 10 n := h ▸ List.mem_cons_self
  exact absurd (isDigit_of_mem_digits hsign) (by decide)

theorem valueChars_inj {v w : Int} (h : valueChars v = valueChars w) : v = w := by
  cases v with
  | ofNat m =>
    cases w with
    | ofNat n => exact congrArg Int.ofNat (toDigits_inj h)
    | negSucc n => exact absurd h toDigits_ne_sign
  | negSucc m =>
    cases w with
    | ofNat n => exact absurd h.symm toDigits_ne_sign
    | negSucc n =>
      have hdigits := toDigits_inj (List.cons.inj h).2
      exact congrArg Int.negSucc (Nat.succ.inj hdigits)

/-! ### Ranges -/

theorem dot_not_mem (v : Int) : '.' ∉ valueChars v := not_mem_valueChars (by decide) (by decide) v

theorem comma_not_mem_rangeChars (lo hi : Int) : ',' ∉ rangeChars lo hi := by
  have hvalue (v : Int) : ',' ∉ valueChars v := not_mem_valueChars (by decide) (by decide) v
  rw [rangeChars]
  split
  · exact hvalue lo
  · simp [hvalue]

theorem rangeChars_ne_nil (lo hi : Int) : rangeChars lo hi ≠ [] := by
  rw [rangeChars]
  split
  · exact valueChars_ne_nil lo
  · simp

theorem rangeChars_of_ne {lo hi : Int} (hne : lo ≠ hi) :
    rangeChars lo hi = valueChars lo ++ '.' :: '.' :: valueChars hi := if_neg hne

theorem rangeChars_self (v : Int) : rangeChars v v = valueChars v := if_pos rfl

theorem rangeChars_ne_valueChars {lo hi : Int} (hne : lo ≠ hi) (v : Int) :
    rangeChars lo hi ≠ valueChars v := by
  -- Only the text of a range of several values has dots.
  intro h
  rw [rangeChars_of_ne hne] at h
  exact dot_not_mem v (h ▸ by simp)

theorem rangeChars_inj {r q : Interval} (h : rangeChars r.lo r.hi = rangeChars q.lo q.hi) :
    r = q := by
  obtain ⟨lo, hi⟩ := r
  obtain ⟨lo', hi'⟩ := q
  simp only at h
  by_cases hone : lo = hi <;> by_cases hone' : lo' = hi'
  · subst hone hone'
    rw [rangeChars_self, rangeChars_self] at h
    rw [valueChars_inj h]
  · subst hone
    exact absurd (h.symm.trans (rangeChars_self lo)) (rangeChars_ne_valueChars hone' lo)
  · subst hone'
    exact absurd (h.trans (rangeChars_self lo')) (rangeChars_ne_valueChars hone lo')
  · rw [rangeChars_of_ne hone, rangeChars_of_ne hone'] at h
    obtain ⟨hstart, hrest⟩ := append_mark_inj (dot_not_mem lo) (dot_not_mem lo') h
    rw [valueChars_inj hstart, valueChars_inj (List.cons.inj hrest).2]

/-! ### Domains -/

namespace Domain
variable {d e : Domain t}

theorem text_inj (h : d.text = e.text) : d.runs = e.runs := by
  have hitems (rs : List Interval) :
      ∀ item ∈ rs.map fun r => rangeChars r.lo r.hi, item ≠ [] ∧ ',' ∉ item := by
    intro item hitem
    obtain ⟨r, -, rfl⟩ := List.mem_map.mp hitem
    exact ⟨rangeChars_ne_nil r.lo r.hi, comma_not_mem_rangeChars r.lo r.hi⟩
  rw [text, text, String.ofList_inj] at h
  have hjoined := List.append_cancel_right (List.cons.inj h).2
  have hranges := intercalate_inj (hitems d.runs) (hitems e.runs) hjoined
  exact List.map_injective_iff.mpr (fun _ _ => rangeChars_inj) hranges

/-- Two domains are written in the same way if and only if they have the same values, whatever
represents them. -/
theorem text_eq_iff [t.Lawful] (hd : d.Valid) (he : e.Valid) :
    d.text = e.text ↔ ∀ v, v ∈ d ↔ v ∈ e := by
  obtain ⟨hcons, hmem⟩ := hd.runs
  obtain ⟨hcons', hmem'⟩ := he.runs
  constructor
  · intro htext v
    rw [← hmem, text_inj htext, hmem']
  · intro hsame
    have hcovered : Runs.covered d.runs = Runs.covered e.runs :=
      Set.ext fun v => (hmem v).trans ((hsame v).trans (hmem' v).symm)
    rw [text, text, hcons.eq_of_covered hcons' hcovered]

/-- The same set of negative values and a singleton in both representations, and a set with one
value more. -/
theorem text_eq_iff_mixed :
    let d : Domain .int32 := .sparse [-3, -2, -1, 4]
    let e : Domain .int32 := .intervals [⟨-3, -1⟩, ⟨4, 4⟩]
    let u : Domain .int32 := .sparse [-3, -2, -1, 4, 5]
    d.Valid ∧ e.Valid ∧ u.Valid ∧ d.text = "\x7b-3..-1, 4\x7d" ∧ (∀ v, v ∈ d ↔ v ∈ e) ∧
      d.text ≠ u.text := by
  intro d e u
  have hd : d.Valid := InUniverse.valid (by decide) (by decide)
  have he : e.Valid := InUniverse.valid (by decide) (by decide)
  have hu : u.Valid := InUniverse.valid (by decide) (by decide)
  refine ⟨hd, he, hu, by decide +kernel, (text_eq_iff hd he).mp (by decide +kernel), ?_⟩
  rw [Ne, text_eq_iff hd hu]
  exact fun hsame => absurd ((hsame 5).mpr (by decide)) (by decide)

end Domain
end FiniteDomains
