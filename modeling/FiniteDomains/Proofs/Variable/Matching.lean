import FiniteDomains.Proofs.Domain.Matching
import FiniteDomains.Proofs.Variable.Versions

/-! Variables that differ in how their values are represented and in nothing else. A request to both
has the same answer and leaves two that differ in nothing else again. -/
namespace FiniteDomains
variable {t : ValueType}

def Narrowing.InUniverse : Narrowing t → Prop
  | .memberOf d => d.Consistent ∧ d.InUniverse
  | .shiftedMemberOf d _ => d.Consistent ∧ d.InUniverse
  | _ => True

structure Version.Matches (w w' : Version t) : Prop where
  values : w.values.Matches w'.values
  stamp : w.stamp = w'.stamp
  model : w.model = w'.model
  search : w.search = w'.search
  sharesSearch : w.sharesSearch = w'.sharesSearch

namespace Variable
variable {v v' : Variable t} {level : Nat} {d d' : Domain t} {α : Type}

/-- Two variables match version by version. -/
structure Matches (v v' : Variable t) : Prop where
  id : v.id = v'.id
  current : v.current.Matches v'.current
  older : List.Forall₂ Version.Matches v.older v'.older

theorem Matches.values (h : v.Matches v') : v.values.Matches v'.values := h.current.values

theorem Matches.stamp (h : v.Matches v') : v.stamp = v'.stamp := h.current.stamp

theorem Matches.versions (h : v.Matches v') :
    List.Forall₂ Version.Matches v.versions v'.versions :=
  .cons h.current h.older

theorem make_agree (id : VarId) (hd : d.Matches d') :
    Agree Matches (make id d) (make id d') := by
  simp only [make, hd.isEmpty_eq]
  split
  · exact .error _
  · exact .ok ⟨rfl, ⟨hd, rfl, rfl, rfl, rfl⟩, .nil⟩

/-! ### Narrowing -/

theorem Matches.fork (h : v.Matches v') (level : Nat) (hd : d.Matches d') :
    (v.fork level d).Matches (v'.fork level d') :=
  ⟨h.id, ⟨hd, rfl, h.current.model, h.current.search, rfl⟩, h.versions⟩

theorem Matches.setValues (h : v.Matches v') (level : Nat) (hd : d.Matches d') :
    (v.setValues level d).Matches (v'.setValues level d') := by
  simp only [Variable.setValues, h.stamp]
  split
  · exact h.fork level hd
  · exact ⟨h.id, ⟨hd, h.current.stamp, h.current.model, h.current.search, h.current.sharesSearch⟩,
      h.older⟩

theorem Matches.atLevel {next next' : Outcome (Variable t) α} (h : v.Matches v') (level : Nat)
    (hnext : next.Matches Matches next') :
    (v.atLevel level next).Matches Matches (v'.atLevel level next') := by
  simp only [Variable.atLevel, h.stamp, h.id]
  split
  · exact hnext
  · exact .fault _

theorem Matches.liesWithin_eq (h : v.Matches v') (lo hi : Int) :
    v.liesWithin lo hi = v'.liesWithin lo hi := by
  rw [liesWithin, liesWithin, h.values.min?_eq, h.values.max?_eq]

section
variable [t.Lawful]

theorem Matches.install (h : v.Matches v') (level : Nat) (hd : d.Matches d') :
    (v.install level d).Matches Matches (v'.install level d') := by
  refine h.atLevel level ?_
  simp only [hd.isEmpty_eq, h.values.between_eq hd]
  split
  · exact .emptied h
  · refine .done _ ?_
    split
    · exact h.setValues level hd
    · exact h

theorem Matches.keepRange (h : v.Matches v') (level : Nat) (lo hi : Int) :
    (v.keepRange level lo hi).Matches Matches (v'.keepRange level lo hi) := by
  simp only [Variable.keepRange, h.liesWithin_eq]
  split
  · exact .emptied h
  · split
    · exact h.atLevel level (.done _ h)
    · exact h.install level (h.values.restrict lo hi)

theorem Matches.dropRange (h : v.Matches v') (level : Nat) (lo hi : Int) :
    (v.dropRange level lo hi).Matches Matches (v'.dropRange level lo hi) := by
  simp only [Variable.dropRange, h.values.meetsRange_eq]
  split
  · exact h.install level (h.values.eraseRange lo hi)
  · exact h.atLevel level (.done _ h)

theorem Matches.keepShifted (h : v.Matches v') (level : Nat) (hd : d.Consistent)
    (hu : d.InUniverse) (offset : Int) :
    (v.keepShifted level d offset).Matches Matches (v'.keepShifted level d offset) := by
  have hvalid : d.Valid := hu.valid hd
  simp only [Variable.keepShifted]
  split
  · exact h.install level (h.values.inter hvalid)
  · next hne =>
    by_cases hin : t.Admissible offset
    · obtain ⟨e, he, hevalid, -⟩ := hvalid.shift hin hne (hu.movable hin)
      simp only [he]
      exact h.install level (h.values.inter hevalid)
    · simp only [Domain.shift_refused d hin]
      exact .fault _

theorem Matches.narrow (h : v.Matches v') (level : Nat) {n : Narrowing t} (hn : n.InUniverse) :
    (v.narrow level n).Matches Matches (v'.narrow level n) := by
  cases n with
  | within lo hi => exact h.keepRange level lo hi
  | atLeast lo =>
    simp only [Variable.narrow, h.values.max?_eq]
    split
    · exact h.keepRange level lo _
    · exact .emptied h
  | atMost hi =>
    simp only [Variable.narrow, h.values.min?_eq]
    split
    · exact h.keepRange level _ hi
    · exact .emptied h
  | outside lo hi => exact h.dropRange level lo hi
  | equalTo w => exact h.keepRange level w w
  | memberOf d => exact h.keepShifted level hn.1 hn.2 0
  | shiftedMemberOf d offset => exact h.keepShifted level hn.1 hn.2 offset

theorem Matches.lostSince (h : v.Matches v') (level : Nat) :
    (v.lostSince level).Matches (v'.lostSince level) := by
  have holder := h.older
  simp only [Variable.lostSince, h.stamp]
  generalize v.older = older at holder
  generalize v'.older = older' at holder
  cases holder with
  | nil => exact h.values.cleared
  | cons hprevious _ =>
    simp only
    split
    · exact hprevious.values.diff h.values
    · exact h.values.cleared

end

/-! ### Constraints -/

theorem Matches.toWake_eq (h : v.Matches v') (change : Change) :
    v.toWake change = v'.toWake change := by
  simp only [Variable.toWake, h.current.model, h.current.search]

theorem Matches.atOwnVersion {next next' : Variable t → Outcome (Variable t) α} (h : v.Matches v')
    (level : Nat) (hnext : ∀ own own', own.Matches own' →
      (next own).Matches Matches (next' own')) :
    (v.atOwnVersion level next).Matches Matches (v'.atOwnVersion level next') := by
  refine h.atLevel level (hnext _ _ ?_)
  simp only [h.stamp]
  split
  · exact h.fork level h.values
  · exact h

theorem Matches.setModel (h : v.Matches v') (model : Subscriptions) :
    (v.setModel model).Matches (v'.setModel model) :=
  ⟨h.id, ⟨h.current.values, h.current.stamp, rfl, h.current.search, h.current.sharesSearch⟩,
    h.older⟩

theorem Matches.setSearch (h : v.Matches v') (search : ActiveSet) :
    (v.setSearch search).Matches (v'.setSearch search) :=
  ⟨h.id, ⟨h.current.values, h.current.stamp, h.current.model, rfl, rfl⟩, h.older⟩

theorem Matches.ownSearch_eq (h : v.Matches v') : v.ownSearch = v'.ownSearch := by
  simp only [Variable.ownSearch, h.current.sharesSearch, h.current.search]

theorem Matches.subscribe (h : v.Matches v') (level : Nat) (c : ConstraintId) (trigger : Trigger) :
    (v.subscribe level c trigger).Matches Matches (v'.subscribe level c trigger) := by
  simp only [Variable.subscribe, h.current.model]
  split
  · exact .done _ h
  · refine h.atOwnVersion level fun own own' hown => ?_
    simp only [hown.current.model]
    exact .done _ (hown.setModel _)

theorem Matches.unsubscribe (h : v.Matches v') (level : Nat) (c : ConstraintId) :
    (v.unsubscribe level c).Matches Matches (v'.unsubscribe level c) := by
  simp only [Variable.unsubscribe, h.current.model]
  split
  · refine h.atOwnVersion level fun own own' hown => ?_
    simp only [hown.current.model]
    exact .done _ (hown.setModel _)
  · exact .done _ h

theorem Matches.activate (h : v.Matches v') (level : Nat) (c : ConstraintId) :
    (v.activate level c).Matches Matches (v'.activate level c) := by
  simp only [Variable.activate, h.current.search]
  split
  · exact .done _ h
  · refine h.atOwnVersion level fun own own' hown => ?_
    simp only [hown.ownSearch_eq]
    exact .done _ (hown.setSearch _)

theorem Matches.deactivate (h : v.Matches v') (level : Nat) (c : ConstraintId) :
    (v.deactivate level c).Matches Matches (v'.deactivate level c) := by
  simp only [Variable.deactivate, h.current.search]
  split
  · refine h.atOwnVersion level fun own own' hown => ?_
    simp only [hown.ownSearch_eq]
    exact .done _ (hown.setSearch _)
  · exact .done _ h

theorem Matches.deactivateAt (h : v.Matches v') (level position : Nat) :
    (v.deactivateAt level position).Matches Matches (v'.deactivateAt level position) := by
  refine h.atOwnVersion level fun own own' hown => ?_
  simp only [hown.ownSearch_eq]
  split
  · exact .done _ (hown.setSearch _)
  · exact .fault _

/-! ### Going back -/

theorem Matches.backTo (h : v.Matches v') (level : Nat) :
    (v.backTo level).Matches (v'.backTo level) := by
  obtain ⟨id, current, older⟩ := v
  obtain ⟨id', current', older'⟩ := v'
  obtain ⟨rfl, hcurrent, holder⟩ := h
  simp only at hcurrent holder
  simp only [Variable.backTo]
  induction holder generalizing current current' with
  | nil => exact ⟨rfl, hcurrent, .nil⟩
  | cons hprevious hrest ih =>
    simp only [restore, hcurrent.stamp]
    split
    · exact ih _ _ hprevious
    · exact ⟨rfl, hcurrent, .cons hprevious hrest⟩

/-! ### What a variable shows -/

/-- Two variables are the same to see, where domains are seen as sets. -/
structure LooksLike (v v' : Variable t) : Prop where
  id : v.id = v'.id
  stamps : v.stamps = v'.stamps
  model : v.versions.map Version.model = v'.versions.map Version.model
  search : v.versions.map Version.search = v'.versions.map Version.search
  size : v.values.size = v'.values.size
  least : v.values.min? = v'.values.min?
  greatest : v.values.max? = v'.values.max?
  contains : ∀ w, v.values.contains w = v'.values.contains w
  history : v.versions.map (fun w => w.values.toFinset) = v'.versions.map fun w => w.values.toFinset
  lost : ∀ level, (v.lostSince level).toFinset = (v'.lostSince level).toFinset

theorem Matches.versions_map {β : Type} (h : v.Matches v') {f : Version t → β}
    (hf : ∀ w w', w.Matches w' → f w = f w') : v.versions.map f = v'.versions.map f := by
  rw [← List.forall₂_eq_eq_eq, List.forall₂_map_left_iff, List.forall₂_map_right_iff]
  exact h.versions.imp hf

theorem Matches.looksLike [t.Lawful] (h : v.Matches v') : v.LooksLike v' where
  id := h.id
  stamps := h.versions_map fun _ _ hw => hw.stamp
  model := h.versions_map fun _ _ hw => hw.model
  search := h.versions_map fun _ _ hw => hw.search
  size := h.values.size_eq
  least := h.values.min?_eq
  greatest := h.values.max?_eq
  contains := h.values.contains_eq
  history := h.versions_map fun _ _ hw => hw.values.toFinset_eq
  lost := fun level => (h.lostSince level).toFinset_eq

end Variable
end FiniteDomains
