import FiniteDomains.Proofs.Domain.Enumeration

/-! The lexicographic order of domains. It is decided interval by interval, but that comes to taking
values of both domains in turn until two differ or one domain has no more. So the order is total on
sets of values, whatever represents them. -/
namespace FiniteDomains
variable {t : ValueType}

theorem compare_append_left (before xs ys : List Int) :
    compare (before ++ xs) (before ++ ys) = compare xs ys := by
  induction before with
  | nil => rfl
  | cons v before ih =>
    have hcons : compare (v :: (before ++ xs)) (v :: (before ++ ys)) =
        (compare v v).then (compare (before ++ xs) (before ++ ys)) := List.compareLex_cons_cons
    rw [List.cons_append, List.cons_append, hcons, Std.compare_self, ih]
    rfl

theorem compare_cons_of_lt {v w : Int} (hlt : v < w) (xs ys : List Int) :
    compare (v :: xs) (w :: ys) = .lt := by
  have hcons : compare (v :: xs) (w :: ys) = (compare v w).then (compare xs ys) :=
    List.compareLex_cons_cons
  rw [hcons, compare_lt_iff_lt.mpr hlt]
  rfl

theorem compare_of_prefix {xs ys : List Int} (h : xs <+: ys) (hne : xs ≠ ys) :
    compare xs ys = .lt := by
  obtain ⟨rest, rfl⟩ := h
  have hbehind := compare_append_left xs [] rest
  rw [List.append_nil] at hbehind
  cases rest with
  | nil => exact absurd (List.append_nil xs).symm hne
  | cons v rest => exact hbehind

/-! ### Interval by interval -/

theorem ValueType.ascending_append {lo : Int} {m n : Nat}
    (hfit : ∀ w, lo < w → w ≤ lo + (m + n + 1 : Nat) → t.fits w = true) :
    t.ascending lo (m + n + 1) = t.ascending lo m ++ t.ascending (lo + m + 1) n := by
  induction m generalizing lo with
  | zero =>
    have hsucc : t.succ lo = lo + 1 := succ_eq (hfit _ (by omega) (by omega))
    simp [ascending, hsucc]
  | succ m ih =>
    have hsucc : t.succ lo = lo + 1 := succ_eq (hfit _ (by omega) (by omega))
    have hsteps : m + 1 + n + 1 = m + n + 1 + 1 := by omega
    have hstart : lo + 1 + m + 1 = lo + (m + 1 : Nat) + 1 := by omega
    have hall : t.ascending lo (m + 1 + n + 1) = lo :: t.ascending (lo + 1) (m + n + 1) := by
      rw [hsteps, ascending, hsucc]
    have hfirst : t.ascending lo (m + 1) = lo :: t.ascending (lo + 1) m := by
      rw [ascending, hsucc]
    rw [hall, hfirst, ih fun w hlo hhi => hfit w (by omega) (by omega), hstart, List.cons_append]

namespace Runs
variable {r q : Interval} {rs qs : List Interval}

theorem exists_values_cons (hle : r.lo ≤ r.hi) (rs : List Interval) :
    ∃ rest, values t (r :: rs) = r.lo :: rest := by
  rw [values_cons, Interval.values_eq hle]
  cases (r.hi - r.lo).toNat with
  | zero => exact ⟨_, rfl⟩
  | succ steps => exact ⟨_, rfl⟩

theorem compare_values_of_lo_lt (hr : r.lo ≤ r.hi) (hq : q.lo ≤ q.hi) (hlt : r.lo < q.lo) :
    compare (values t (r :: rs)) (values t (q :: qs)) = .lt := by
  obtain ⟨xs, hxs⟩ := exists_values_cons (t := t) hr rs
  obtain ⟨ys, hys⟩ := exists_values_cons (t := t) hq qs
  rw [hxs, hys]
  exact compare_cons_of_lt hlt xs ys

theorem compare_values_of_hi_lt (h : Consistent (r :: rs)) (hlo : r.lo = q.lo) (hlt : r.hi < q.hi)
    (hfit : ∀ v ∈ q, t.fits v = true) :
    compare (values t (r :: rs)) (values t (q :: qs)) = if rs.isEmpty then .lt else .gt := by
  -- Of two intervals with one start the shorter one decides. With nothing behind it, it is a part
  -- of the other; otherwise what is behind it comes later than the values of the other that it
  -- lacks.
  have hle := h.1
  have hbehind : r.hi + 1 ≤ q.hi := hlt
  -- what the longer interval has behind the shorter one
  obtain ⟨missing, hmissing⟩ := exists_values_cons (t := t) (r := ⟨r.hi + 1, q.hi⟩) hbehind qs
  have hsplit : q.values t = r.values t ++ Interval.values t ⟨r.hi + 1, q.hi⟩ := by
    have hsteps : (q.hi - q.lo).toNat =
        (r.hi - r.lo).toNat + (q.hi - (r.hi + 1)).toNat + 1 := by omega
    have hstart : r.lo + (r.hi - r.lo).toNat + 1 = r.hi + 1 := by omega
    rw [Interval.values_eq (by omega), Interval.values_eq hle, Interval.values_eq hbehind, hsteps,
      ← hlo, ValueType.ascending_append fun w _ _ => hfit w ⟨by omega, by omega⟩, hstart]
  rw [values_cons] at hmissing
  rw [values_cons, values_cons, hsplit, List.append_assoc, hmissing, compare_append_left]
  cases rs with
  | nil => rfl
  | cons p ps =>
    obtain ⟨rest, hrest⟩ := exists_values_cons (t := t) h.tail.1 ps
    have hfar : r.hi + 1 < p.lo := h.far List.mem_cons_self
    rw [hrest, Std.OrientedOrd.eq_swap, compare_cons_of_lt hfar]
    rfl

theorem lexCompare_eq (h : Consistent rs) (hqs : Consistent qs)
    (hfit : ∀ v ∈ covered rs, t.fits v = true) (hfit' : ∀ v ∈ covered qs, t.fits v = true) :
    lexCompare rs qs = compare (values t rs) (values t qs) := by
  induction rs generalizing qs with
  | nil =>
    cases qs with
    | nil => rfl
    | cons q qs =>
      obtain ⟨rest, hrest⟩ := exists_values_cons (t := t) hqs.1 qs
      rw [hrest]
      rfl
  | cons r rs ih =>
    cases qs with
    | nil =>
      obtain ⟨rest, hrest⟩ := exists_values_cons (t := t) h.1 rs
      rw [hrest]
      rfl
    | cons q qs =>
      have hfitr : ∀ v ∈ r, t.fits v = true := fun v hv => hfit v (mem_covered_cons.mpr (.inl hv))
      have hfitq : ∀ v ∈ q, t.fits v = true := fun v hv => hfit' v (mem_covered_cons.mpr (.inl hv))
      rcases Int.lt_trichotomy r.lo q.lo with hlt | hlo | hlt
      · rw [lexCompare, if_pos hlt, compare_values_of_lo_lt h.1 hqs.1 hlt]
      · rcases Int.lt_trichotomy r.hi q.hi with hshort | hhi | hlong
        · rw [lexCompare, if_neg (by omega), if_neg (by omega), if_pos hshort,
            compare_values_of_hi_lt h hlo hshort hfitq]
        · have heq : r.values t = q.values t := by simp only [Interval.values, hlo, hhi]
          rw [lexCompare, if_neg (by omega), if_neg (by omega), if_neg (by omega),
            if_neg (by omega), values_cons, values_cons, heq, compare_append_left]
          exact ih h.tail hqs.tail (fun v hv => hfit v (mem_covered_cons.mpr (.inr hv)))
            fun v hv => hfit' v (mem_covered_cons.mpr (.inr hv))
        · rw [lexCompare, if_neg (by omega), if_neg (by omega), if_neg (by omega), if_pos hlong,
            Std.OrientedOrd.eq_swap, compare_values_of_hi_lt hqs hlo.symm hlong hfitr]
          split <;> rfl
      · rw [lexCompare, if_neg (by omega), if_pos hlt, Std.OrientedOrd.eq_swap,
          compare_values_of_lo_lt hqs.1 h.1 hlt]
        rfl

end Runs

/-! ### Value by value -/

/-- How two walks compare whose items are taken in turn: the first two items that differ decide, or
else the walk that ends before the other. -/
inductive ValueWalk.Compares (t : ValueType) : ValueWalk → ValueWalk → Ordering → Prop
  | bothEnd {walk walk' : ValueWalk} : walk.next? t = none → walk'.next? t = none →
      Compares t walk walk' .eq
  | leftEnds {walk walk' rest' : ValueWalk} {w : Int} : walk.next? t = none →
      walk'.next? t = some (w, rest') → Compares t walk walk' .lt
  | rightEnds {walk walk' rest : ValueWalk} {v : Int} : walk.next? t = some (v, rest) →
      walk'.next? t = none → Compares t walk walk' .gt
  | differ {walk walk' rest rest' : ValueWalk} {v w : Int} : walk.next? t = some (v, rest) →
      walk'.next? t = some (w, rest') → v ≠ w → Compares t walk walk' (compare v w)
  | goOn {walk walk' rest rest' : ValueWalk} {v : Int} {order : Ordering} :
      walk.next? t = some (v, rest) → walk'.next? t = some (v, rest') →
      Compares t rest rest' order → Compares t walk walk' order

theorem Yields.compares {walk walk' : ValueWalk} {xs ys : List Int}
    (h : Yields (ValueWalk.next? t) walk xs) (h' : Yields (ValueWalk.next? t) walk' ys) :
    walk.Compares t walk' (compare xs ys) := by
  induction xs generalizing walk walk' ys with
  | nil =>
    cases ys with
    | nil => exact .bothEnd h h'
    | cons w ys =>
      obtain ⟨rest', hstep', -⟩ := h'
      exact .leftEnds h hstep'
  | cons v xs ih =>
    obtain ⟨rest, hstep, hrest⟩ := h
    cases ys with
    | nil => exact .rightEnds hstep h'
    | cons w ys =>
      obtain ⟨rest', hstep', hrest'⟩ := h'
      by_cases heq : v = w
      · subst heq
        have hskip : compare (v :: xs) (v :: ys) = compare xs ys := compare_append_left [v] xs ys
        rw [hskip]
        exact .goOn hstep hstep' (ih hrest hrest')
      · have hdecide : compare (v :: xs) (w :: ys) = compare v w := by
          rcases Int.lt_or_gt_of_ne heq with hlt | hlt
          · rw [compare_cons_of_lt hlt, compare_lt_iff_lt.mpr hlt]
          · rw [Std.OrientedOrd.eq_swap, compare_cons_of_lt hlt, compare_gt_iff_gt.mpr hlt]
            rfl
        rw [hdecide]
        exact .differ hstep hstep' heq

namespace Domain
variable {d e u : Domain t}

theorem Valid.values_eq_iff (h : d.Valid) (he : e.Valid) :
    d.values = e.values ↔ ∀ v, v ∈ d ↔ v ∈ e := by
  constructor
  · intro heq v
    rw [← h.mem_values, heq, he.mem_values]
  · intro hsame
    refine h.values_consistent.eq_of_mem_iff he.values_consistent fun v => ?_
    rw [h.mem_values, he.mem_values, hsame]

variable [t.Lawful]

/-- Intervals or runs of listed values, the order is that of the values. -/
theorem Valid.lexCompare_eq (h : d.Valid) (he : e.Valid) :
    d.lexCompare e = compare d.values e.values := by
  obtain ⟨hcons, hmem⟩ := h.runs
  obtain ⟨hcons', hmem'⟩ := he.runs
  have hfit : ∀ v ∈ Runs.covered d.runs, t.fits v = true := fun v hv => h.fits v ((hmem v).mp hv)
  have hfit' : ∀ v ∈ Runs.covered e.runs, t.fits v = true :=
    fun v hv => he.fits v ((hmem' v).mp hv)
  rw [lexCompare, Runs.lexCompare_eq hcons hcons' hfit hfit', ← h.values_runs, ← he.values_runs]
  rfl

/-- The order of domains compares their values in turn. It is a total order on sets of values in any
representation, and puts a domain before those that have more values behind all of its own. -/
theorem order_total (hd : d.Valid) (he : e.Valid) (hu : u.Valid) :
    ValueWalk.Compares t d.valueWalk e.valueWalk (d.lexCompare e) ∧
      (d.lexCompare e = .eq ↔ ∀ v, v ∈ d ↔ v ∈ e) ∧
      (d.Sized → e.Sized → (d.lexCompare e = .eq ↔ d.sameValues e = true)) ∧
      e.lexCompare d = (d.lexCompare e).swap ∧
      (d.lexCompare e = .lt → e.lexCompare u = .lt → d.lexCompare u = .lt) ∧
      ((∀ v, v ∈ d ↔ v ∈ u) →
        d.lexCompare e = u.lexCompare e ∧ e.lexCompare d = e.lexCompare u) ∧
      (d.values <+: e.values → d.values ≠ e.values → d.lexCompare e = .lt) := by
  have hequal : d.lexCompare e = .eq ↔ ∀ v, v ∈ d ↔ v ∈ e := by
    rw [hd.lexCompare_eq he, Std.compare_eq_iff_eq, hd.values_eq_iff he]
  refine ⟨?_, hequal, fun hsized hsized' => ?_, ?_, ?_, fun hsame => ?_, ?_⟩
  · rw [hd.lexCompare_eq he]
    exact hd.yields_values.compares he.yields_values
  · rw [hequal, hsized.sameValues_iff hsized']
  · rw [hd.lexCompare_eq he, he.lexCompare_eq hd]
    exact Std.OrientedOrd.eq_swap
  · rw [hd.lexCompare_eq he, he.lexCompare_eq hu, hd.lexCompare_eq hu]
    exact Std.TransCmp.lt_trans
  · have hvalues := (hd.values_eq_iff hu).mpr hsame
    rw [hd.lexCompare_eq he, he.lexCompare_eq hd, hu.lexCompare_eq he, he.lexCompare_eq hu, hvalues]
    exact ⟨rfl, rfl⟩
  · rw [hd.lexCompare_eq he]
    exact compare_of_prefix

/-- A proper prefix in the other representation, and one more set behind both. -/
theorem order_total_prefix :
    let d : Domain .int32 := .sparse [1, 2]
    let e : Domain .int32 := .intervals [⟨1, 3⟩]
    let u : Domain .int32 := .sparse [1, 4]
    let d' : Domain .int32 := .intervals [⟨1, 2⟩]
    d.Sized ∧ e.Valid ∧ u.Valid ∧ d'.Sized ∧ d.lexCompare e = .lt ∧ e.lexCompare d = .gt ∧
      d.lexCompare u = .lt ∧ (d.lexCompare d' = .eq ↔ d.sameValues d' = true) ∧
      d.lexCompare e = d'.lexCompare e ∧
      ValueWalk.Compares .int32 d.valueWalk e.valueWalk (d.lexCompare e) := by
  intro d e u d'
  have hd : d.Sized := .of_inUniverse (by decide) (by decide) fun _ => by decide
  have he : e.Sized := .of_inUniverse (by decide) (by decide) nofun
  have hu : u.Sized := .of_inUniverse (by decide) (by decide) fun _ => by decide
  have hd' : d'.Sized := .of_inUniverse (by decide) (by decide) nofun
  obtain ⟨hwalks, -, -, hswap, htrans, -, hprefix⟩ :=
    order_total hd.toValid he.toValid hu.toValid
  obtain ⟨-, hequal, hsame, -⟩ := order_total hd.toValid hd'.toValid he.toValid
  obtain ⟨-, -, -, -, -, hreplaced, -⟩ := order_total hd.toValid he.toValid hd'.toValid
  have hlt : d.lexCompare e = .lt := hprefix (by decide) (by decide)
  have hgt : e.lexCompare d = .gt := by rw [hswap, hlt]; rfl
  exact ⟨hd, he.toValid, hu.toValid, hd', hlt, hgt, htrans hlt (by decide), hsame hd hd',
    (hreplaced (hequal.mp (by decide))).1, hwalks⟩

end Domain
end FiniteDomains
