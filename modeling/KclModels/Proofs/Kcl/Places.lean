import Mathlib.Logic.Basic
import KclModels.Kcl.Declaration
import KclModels.Proofs.Model.Positions

/-!
# Where spelled types stand

The positions of the models whose types a declaration is written with. Which these are depends on
names and on what the branches refer to, and not on the texts of types.
-/

namespace KclModels.Kcl

open Model

/-- A model with its position in another. -/
abbrev Located := Position × Model

/-- The places of models in a row, from number `index` on. -/
def rowPlaces (row : Row) (index : Nat) : List Model → List Located
  | [] => []
  | m :: rest => ([.child row index], m) :: rowPlaces row (index + 1) rest

/-- The places of the properties of all branches but the parent, from number `index` on. -/
def branchPlaces (parent : Option Nat) (index : Nat) : List Model → List Located
  | [] => []
  | branch :: rest =>
    (if parent = some index then []
      else (rowPlaces .properties 0 branch.properties).map fun place =>
        (.branch index :: place.1, place.2)) ++ branchPlaces parent (index + 1) rest

/-- The places whose models have names that do not come before. -/
def firstPlaces (seen : List String) : List Located → List Located
  | [] => []
  | place :: rest =>
    if seen.contains place.2.name then firstPlaces seen rest
    else place :: firstPlaces (place.2.name :: seen) rest

/-- The places of the attributes that a schema declares for properties. -/
def attributePlaces (m : Model) : List Located :=
  firstPlaces [] (rowPlaces .properties 0 m.properties ++ branchPlaces m.parentBranch 0 m.allOf)

/-- Whether an edge leads to a part that a type is written out of. -/
def inType : Edge → Bool
  | .items | .additionalItems | .values => true
  | .child _ _ => false

/--
`Spells m p`: the declaration of `m` may be written with the type of the model at `p`. An alias is
written with the type of `m` itself, and the items past the places of a tuple and the values beyond
the attributes are parts of `m`.
-/
inductive Spells (m : Model) : Position → Prop
  | itself : Spells m []
  | parent {index : Nat} : m.parentBranch = some index → Spells m [.branch index]
  | declared {place : Located} : place ∈ attributePlaces m → Spells m place.1
  | part {p : Position} {e : Edge} : Spells m p → inType e = true →
    (m.at? (p ++ [e])).isSome = true → Spells m (p ++ [e])

/-- The position is that of the parent of a model or below it. -/
def InParent (m : Model) (p : Position) : Prop :=
  ∃ (index : Nat) (rest : Position), m.parentBranch = some index ∧ p = .branch index :: rest

variable {m m' : Model} {place : Located} {places places' : List Located} {seen seen' : List String}
variable {row : Row} {parent : Option Nat} {l l' : List Model} {p : Position}

/-! ## Places and attributes -/

theorem rowPlaces_models (row : Row) (l : List Model) :
    ∀ index, (rowPlaces row index l).map Prod.snd = l := by
  induction l with
  | nil => exact fun _ => rfl
  | cons m rest ih => exact fun index => congrArg (m :: ·) (ih (index + 1))

theorem branchPlaces_models (parent : Option Nat) (l : List Model) : ∀ index,
    (branchPlaces parent index l).map Prod.snd =
      (((l.zipIdx index).filter fun (_, i) => parent != some i).map Prod.fst).flatMap
        (·.properties) := by
  induction l with
  | nil => exact fun _ => rfl
  | cons branch rest ih =>
    intro index
    rw [branchPlaces, List.map_append, ih, List.zipIdx_cons, List.filter_cons]
    split
    · rename_i heq
      simp [heq]
    · rename_i hne
      have hrow := rowPlaces_models .properties branch.properties 0
      simp only [List.map_map, Function.comp_def, bne_iff_ne, ne_eq, hne, not_false_eq_true,
        if_true, List.map_cons, List.flatMap_cons]
      exact congrArg (· ++ _) hrow

theorem firstPlaces_models (places : List Located) : ∀ seen,
    (firstPlaces seen places).map Prod.snd = firstOfEachName seen (places.map Prod.snd) := by
  induction places with
  | nil => exact fun _ => rfl
  | cons place rest ih =>
    intro seen
    rw [firstPlaces, List.map_cons, firstOfEachName]
    split
    · exact ih seen
    · exact congrArg (place.2 :: ·) (ih _)

/-- The places are those of the attributes that a schema declares. -/
theorem attributePlaces_models (m : Model) :
    (attributePlaces m).map Prod.snd = ownAttributes m m.parentBranch := by
  rw [attributePlaces, firstPlaces_models, List.map_append, rowPlaces_models, branchPlaces_models]
  rfl

theorem mem_firstPlaces : ∀ {seen}, place ∈ firstPlaces seen places → place ∈ places := by
  induction places with
  | nil => exact fun h => h
  | cons q rest ih =>
    intro seen h
    rw [firstPlaces] at h
    split at h
    · exact List.mem_cons_of_mem _ (ih h)
    · rcases List.mem_cons.mp h with rfl | h
      · exact List.mem_cons_self
      · exact List.mem_cons_of_mem _ (ih h)

theorem mem_rowPlaces : ∀ {index}, place ∈ rowPlaces row index l →
    ∃ n, place.1 = [.child row (index + n)] ∧ l[n]? = some place.2 := by
  induction l with
  | nil => exact fun h => absurd h List.not_mem_nil
  | cons m rest ih =>
    intro index h
    rcases List.mem_cons.mp h with rfl | h
    · exact ⟨0, rfl, rfl⟩
    · obtain ⟨n, hp, hn⟩ := ih h
      exact ⟨n + 1, by rw [hp, Nat.add_right_comm, Nat.add_assoc], hn⟩

theorem mem_branchPlaces : ∀ {index}, place ∈ branchPlaces parent index l →
    ∃ k n branch, place.1 = [.branch (index + k), .property n] ∧ parent ≠ some (index + k) ∧
      l[k]? = some branch ∧ branch.properties[n]? = some place.2 := by
  induction l with
  | nil => exact fun h => absurd h List.not_mem_nil
  | cons branch rest ih =>
    intro index h
    rw [branchPlaces] at h
    rcases List.mem_append.mp h with h | h
    · split at h
      · exact absurd h List.not_mem_nil
      · rename_i hne
        obtain ⟨q, hq, rfl⟩ := List.mem_map.mp h
        obtain ⟨n, hp, hn⟩ := mem_rowPlaces hq
        exact ⟨0, n, branch, by simp [hp], hne, rfl, hn⟩
    · obtain ⟨k, n, b, hp, hne, hk, hn⟩ := ih h
      have hindex : index + 1 + k = index + (k + 1) := by omega
      exact ⟨k + 1, n, b, hindex ▸ hp, hindex ▸ hne, hk, hn⟩

theorem branchPlaces_at (h : place ∈ branchPlaces parent 0 m.allOf) :
    m.at? place.1 = some place.2 := by
  obtain ⟨k, n, branch, hp, -, hk, hn⟩ := mem_branchPlaces h
  have hb : m.part? (.branch k) = some branch := hk
  rw [hp, Nat.zero_add, at?, hb, Option.bind_some, at?_single]
  exact hn

/-- A place holds the model that it is the place of. -/
theorem attributePlaces_at (h : place ∈ attributePlaces m) : m.at? place.1 = some place.2 := by
  rcases List.mem_append.mp (mem_firstPlaces h) with h | h
  · obtain ⟨n, hp, hn⟩ := mem_rowPlaces h
    rw [hp, at?_single, Nat.zero_add]
    exact hn
  · exact branchPlaces_at h

/-! ## Places in models that are alike -/

/-- A place with only the name of its model. -/
def label (place : Located) : Position × String := (place.1, place.2.name)

theorem rowPlaces_labels (row : Row) (h : l.map (·.name) = l'.map (·.name)) : ∀ index,
    (rowPlaces row index l).map label = (rowPlaces row index l').map label := by
  induction l generalizing l' with
  | nil =>
    obtain rfl : l' = [] := List.map_eq_nil_iff.mp h.symm
    exact fun _ => rfl
  | cons m rest ih =>
    cases l' with
    | nil => exact absurd h (by simp)
    | cons m' rest' =>
      obtain ⟨hm, hrest⟩ := List.cons.inj h
      have hm : m.name = m'.name := hm
      intro index
      rw [rowPlaces, rowPlaces, List.map_cons, List.map_cons, ih hrest, label, label, hm]

theorem branchPlaces_labels (parent : Option Nat)
    (h : l.map (fun b => b.properties.map (·.name)) =
      l'.map fun b => b.properties.map (·.name)) : ∀ index,
    (branchPlaces parent index l).map label = (branchPlaces parent index l').map label := by
  induction l generalizing l' with
  | nil =>
    obtain rfl : l' = [] := List.map_eq_nil_iff.mp h.symm
    exact fun _ => rfl
  | cons b rest ih =>
    cases l' with
    | nil => exact absurd h (by simp)
    | cons b' rest' =>
      obtain ⟨hb, hrest⟩ := List.cons.inj h
      intro index
      rw [branchPlaces, branchPlaces, List.map_append, List.map_append, ih hrest]
      split
      · rfl
      · have hrow := congrArg (List.map fun l => (Edge.branch index :: l.1, l.2))
          (rowPlaces_labels .properties hb 0)
        rw [List.map_map, List.map_map] at hrow ⊢
        exact congrArg (· ++ _) hrow

theorem firstPlaces_labels (h : places.map label = places'.map label) : ∀ seen,
    (firstPlaces seen places).map label = (firstPlaces seen places').map label := by
  induction places generalizing places' with
  | nil =>
    obtain rfl : places' = [] := List.map_eq_nil_iff.mp h.symm
    exact fun _ => rfl
  | cons place rest ih =>
    cases places' with
    | nil => exact absurd h (by simp)
    | cons place' rest' =>
      obtain ⟨hlabel, hrest⟩ := List.cons.inj h
      have hname : place.2.name = place'.2.name := congrArg Prod.snd hlabel
      intro seen
      rw [firstPlaces, firstPlaces, hname]
      split
      · exact ih hrest seen
      · rw [List.map_cons, List.map_cons, hlabel, ih hrest]

theorem attributePlaces_labels (h : m.Alike m') :
    (attributePlaces m).map label = (attributePlaces m').map label := by
  have hname : ∀ p p' : Model, p.Alike p' → p.name = p'.name := fun _ _ hp => hp.name
  have hown := rowPlaces_labels .properties (h.map_row .properties _ hname) 0
  have hbranches := branchPlaces_labels m'.parentBranch
    (h.map_row .branches _ fun _ _ hb => hb.map_row .properties _ hname) 0
  refine firstPlaces_labels ?_ []
  rw [List.map_append, List.map_append, h.parentBranch]
  exact congrArg₂ (· ++ ·) hown hbranches

/-- **Models that are alike spell the types of the same positions.** -/
theorem Spells.alike (h : m.Alike m') (hp : Spells m p) : Spells m' p := by
  induction hp with
  | itself => exact .itself
  | parent hparent => exact .parent (h.parentBranch ▸ hparent)
  | declared hplace =>
    have hmem := List.mem_map_of_mem (f := label) hplace
    rw [attributePlaces_labels h] at hmem
    obtain ⟨place', hplace', hlabel⟩ := List.mem_map.mp hmem
    have hfirst := congrArg Prod.fst hlabel
    dsimp only [label] at hfirst
    exact hfirst ▸ .declared hplace'
  | part _ he hsome ih => exact .part ih he (by rw [← h.at?_isSome]; exact hsome)

/-! ## The names of attributes -/

theorem mem_names_firstOfEachName {x : String} : ∀ {seen},
    x ∈ (firstOfEachName seen l).map (·.name) ↔ x ∈ l.map (·.name) ∧ x ∉ seen := by
  induction l with
  | nil => simp [firstOfEachName]
  | cons m rest ih =>
    intro seen
    rw [firstOfEachName, List.map_cons, List.mem_cons]
    split
    · rename_i hseen
      have hmem : m.name ∈ seen := by simpa using hseen
      -- the name was seen: leaving it out changes nothing for names that were not
      rw [ih]
      constructor
      · exact fun h => ⟨.inr h.1, h.2⟩
      · rintro ⟨rfl | hx, hnot⟩
        · exact absurd hmem hnot
        · exact ⟨hx, hnot⟩
    · rename_i hseen
      have hnot : m.name ∉ seen := by simpa using hseen
      rw [List.map_cons, List.mem_cons, ih, List.mem_cons, not_or]
      constructor
      · rintro (rfl | ⟨hx, -, hx'⟩)
        · exact ⟨.inl rfl, hnot⟩
        · exact ⟨.inr hx, hx'⟩
      · rintro ⟨hx, hx'⟩
        by_cases heq : x = m.name
        · exact .inl heq
        · exact .inr ⟨hx.resolve_left heq, heq, hx'⟩

theorem mem_otherBranches {b : Model} :
    b ∈ otherBranches m parent ↔ ∃ i : Nat, m.allOf[i]? = some b ∧ parent ≠ some i := by
  simp only [otherBranches, List.mem_map, List.mem_filter, bne_iff_ne, Prod.exists,
    List.mem_zipIdx_iff_getElem?]
  constructor
  · rintro ⟨_, i, ⟨hb, hne⟩, rfl⟩
    exact ⟨i, hb, hne⟩
  · rintro ⟨i, hb, hne⟩
    exact ⟨b, i, ⟨hb, hne⟩, rfl⟩

/-- The names of attributes are those of the properties, and of those of all branches but one. -/
theorem mem_names_ownAttributes {x : String} :
    x ∈ (ownAttributes m parent).map (·.name) ↔ x ∈ m.properties.map (·.name) ∨
      ∃ (i : Nat) (b : Model), m.allOf[i]? = some b ∧ parent ≠ some i ∧
        x ∈ b.properties.map (·.name) := by
  rw [ownAttributes, mem_names_firstOfEachName, List.map_append, List.mem_append,
    List.map_flatMap, List.mem_flatMap]
  refine (and_iff_left List.not_mem_nil).trans (or_congr_right ?_)
  constructor
  · rintro ⟨b, hb, hx⟩
    obtain ⟨i, hi, hne⟩ := mem_otherBranches.mp hb
    exact ⟨i, b, hi, hne, hx⟩
  · rintro ⟨i, b, hi, hne, hx⟩
    exact ⟨b, mem_otherBranches.mpr ⟨i, hi, hne⟩, hx⟩

/-- Models that are alike declare attributes with the same names. -/
theorem names_ownAttributes (h : m.Alike m') :
    (ownAttributes m m.parentBranch).map (·.name) =
      (ownAttributes m' m'.parentBranch).map (·.name) := by
  have hlabels := congrArg (List.map Prod.snd) (attributePlaces_labels h)
  rw [← attributePlaces_models, ← attributePlaces_models, List.map_map, List.map_map]
  rwa [List.map_map, List.map_map] at hlabels

end KclModels.Kcl
