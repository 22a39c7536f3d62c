import KclModels.Proofs.Imports.Once
import KclModels.Proofs.Imports.Types
import KclModels.Proofs.Kcl.Places

/-!
# What a rendered model spells is written out

The visits to a rendered model go to the positions whose types its declaration is written with. Both
find the parent and the attributes by themselves; they agree because the visits change nothing but
the texts of types, which neither of them looks at. Of the parent itself only the name is written
out, and nothing below it.
-/

namespace KclModels.Imports

open Model
open Kcl (Located rowPlaces branchPlaces firstPlaces attributePlaces inType Spells)

variable {tr : Text.Transliteration}
variable {target : String} {m p b : Model} {i j : Imports} {q r : Position} {e : Edge}
variable {l : List Model} {seen seen' declared : List String} {parent : Option Nat}
variable {visits : List Visit} {place : Located} {index n : Nat}

/-! ## Visits keep outlines -/

theorem atPosition_alike {write : Model → Imports → Model × Imports}
    (hwrite : ∀ (m : Model) i, m.Alike (write m i).1) (q : Position) :
    ∀ (m : Model) i, m.Alike (atPosition write q m i).1 := by
  induction q with
  | nil => exact hwrite
  | cons e rest ih =>
    intro m i
    rw [atPosition]
    split
    · exact Alike.refl m
    · rename_i p hp
      refine alike_of_parts ?_ fun e' => ?_
      · cases e with
        | child row index => cases row <;> rfl
        | _ => rfl
      · by_cases he : e = e'
        · subst he
          exact Or.inr ⟨p, _, hp, part?_setPart hp _, ih p i⟩
        · exact Or.inl (part?_setPart_of_ne he m _).symm

theorem alike_of_type {t : TypeInfo} (h : typeOutline t = typeOutline m.type) :
    m.Alike { m with type := t } := by
  refine alike_of_parts ?_ fun e => Or.inl ?_
  · rw [outline, outline, h]
  · cases e with
    | child row index => cases row <;> rfl
    | _ => rfl

theorem qualify_outline (target : String) (t : TypeInfo) (i : Imports) :
    typeOutline (qualify target t i).1 = typeOutline t := by
  unfold qualify
  split <;> rfl

theorem rebracket_outline (t : TypeInfo) (item value : Option Model) :
    typeOutline (rebracket t item value) = typeOutline t := by
  unfold rebracket
  cases item with
  | none =>
    cases value with
    | none => rfl
    | some v => dsimp only; split <;> rfl
  | some p =>
    cases value with
    | none => dsimp only; split <;> rfl
    | some v => dsimp only; split <;> split <;> rfl

theorem writeType_alike (target : String) (m : Model) (i : Imports) :
    m.Alike (writeType target m i).1 := by
  rw [writeType_eq]
  exact alike_of_type ((qualify_outline target _ i).trans (rebracket_outline _ _ _))

theorem writeName_alike (target : String) (m : Model) (i : Imports) :
    m.Alike (writeName target m i).1 := by
  rw [writeName_eq]
  exact alike_of_type (qualify_outline target _ i)

theorem run_alike [Text.Transliteration] (target : String) (visit : Visit) (s : Model × Imports) :
    s.1.Alike (visit.run target s).1 := by
  cases visit with
  | whole q => exact atPosition_alike (writeType_alike target) q s.1 s.2
  | name q => exact atPosition_alike (writeName_alike target) q s.1 s.2

/-- **Visits change nothing but the texts of types.** -/
theorem runVisits_alike (target : String) (visits : List Visit) (s : Model × Imports) :
    s.1.Alike (runVisits target visits s).1 := by
  induction visits generalizing s with
  | nil => exact Alike.refl _
  | cons visit rest ih => exact (run_alike target visit s).trans (ih _)

theorem collectRendered_alike [Text.Transliteration] (target : String) (m : Model) (i : Imports) :
    m.Alike (collectRendered target m i).1 := by
  rw [← collectRendered_eq_runVisits]
  exact runVisits_alike target (visitsOfRendered m) (m, i)

/-! ## What is visited -/

theorem mem_below : Visit.whole q ∈ visits.map (Visit.below e) ↔
    ∃ r, q = e :: r ∧ .whole r ∈ visits := by
  constructor
  · intro h
    obtain ⟨visit, hvisit, heq⟩ := List.mem_map.mp h
    cases visit with
    | whole r => exact ⟨r, (Visit.whole.inj heq).symm, hvisit⟩
    | name r => exact absurd heq (by simp [Visit.below])
  · rintro ⟨r, rfl, h⟩
    exact List.mem_map.mpr ⟨_, h, rfl⟩

theorem mem_visitsOfOption {o : Option Model} :
    Visit.whole q ∈ (visitsOfOption o).map (Visit.below e) ↔
      ∃ r p, q = e :: r ∧ o = some p ∧ .whole r ∈ visitsOf p := by
  cases o <;> simp [visitsOfOption, mem_below]

theorem mem_visitsOfList {row : Row} (l : List Model) : ∀ index,
    .whole q ∈ visitsOfList l row index ↔
      ∃ n r p, q = .child row (index + n) :: r ∧ l[n]? = some p ∧ .whole r ∈ visitsOf p := by
  induction l with
  | nil => simp [visitsOfList]
  | cons m rest ih =>
    intro index
    rw [visitsOfList, List.mem_append, mem_below, ih]
    constructor
    · rintro (⟨r, rfl, h⟩ | ⟨n, r, p, rfl, hn, h⟩)
      · exact ⟨0, r, m, rfl, rfl, h⟩
      · exact ⟨n + 1, r, p, by rw [Nat.add_right_comm, Nat.add_assoc], hn, h⟩
    · rintro ⟨n, r, p, rfl, hn, h⟩
      cases n with
      | zero =>
        obtain rfl : m = p := Option.some.inj hn
        exact Or.inl ⟨r, rfl, h⟩
      | succ n => exact Or.inr ⟨n, r, p, by rw [Nat.add_right_comm, Nat.add_assoc], hn, h⟩

theorem mem_visitsOf_cons (m : Model) (e : Edge) (r : Position) :
    .whole (e :: r) ∈ visitsOf m ↔ ∃ p, m.part? e = some p ∧ .whole r ∈ visitsOf p := by
  obtain ⟨facts, items, extraItems, properties, allOf, value⟩ := m
  simp only [visitsOf, List.mem_append, mem_visitsOfOption, mem_visitsOfList, List.cons.injEq]
  cases e with
  | child row index => cases row <;> simp [part?, Model.row]
  | _ => simp [part?]

/-- **Every model of a tree is visited.** -/
theorem mem_visitsOf (q : Position) : ∀ m : Model, .whole q ∈ visitsOf m ↔ (m.at? q).isSome := by
  induction q with
  | nil =>
    intro m
    obtain ⟨facts, items, extraItems, properties, allOf, value⟩ := m
    simp [visitsOf, at?]
  | cons e rest ih =>
    intro m
    rw [mem_visitsOf_cons, at?]
    cases m.part? e with
    | none => simp
    | some p => simp [ih]

/-! ## Attributes that come first -/

theorem mem_seenWith {name : String} (l : List Model) :
    ∀ seen, name ∈ seenWith seen l ↔ name ∈ seen ∨ name ∈ l.map (·.name) := by
  induction l with
  | nil => simp [seenWith]
  | cons m rest ih =>
    intro seen
    rw [seenWith, List.map_cons, List.mem_cons]
    split
    · rename_i hseen
      rw [ih]
      refine or_congr_right' fun hnot => ?_
      have hne : name ≠ m.name := by
        rintro rfl
        exact hnot (List.contains_iff_mem.mp hseen)
      exact ⟨Or.inr, fun h => h.resolve_left hne⟩
    · rw [ih, List.mem_cons, or_assoc, or_left_comm]

theorem firstPlaces_congr {places : List Located} (h : ∀ n, n ∈ seen ↔ n ∈ seen') :
    firstPlaces seen places = firstPlaces seen' places := by
  induction places generalizing seen seen' with
  | nil => rfl
  | cons place rest ih =>
    have hcontains : seen.contains place.2.name = seen'.contains place.2.name := by
      rw [Bool.eq_iff_iff, List.contains_iff_mem, List.contains_iff_mem, h]
    have hcons : ∀ n, n ∈ place.2.name :: seen ↔ n ∈ place.2.name :: seen' := by
      intro n
      rw [List.mem_cons, List.mem_cons, h]
    rw [firstPlaces, firstPlaces, hcontains, ih h, ih hcons]

theorem firstPlaces_append (places places' : List Located) : ∀ seen,
    firstPlaces seen (places ++ places') =
      firstPlaces seen places ++ firstPlaces (seenWith seen (places.map Prod.snd)) places' := by
  induction places with
  | nil => exact fun _ => rfl
  | cons place rest ih =>
    intro seen
    rw [List.cons_append, firstPlaces, firstPlaces, List.map_cons, seenWith]
    split
    · exact ih seen
    · exact congrArg (place :: ·) (ih _)

theorem firstPlaces_map (f : Position → Position) (places : List Located) : ∀ seen,
    firstPlaces seen (places.map fun place => (f place.1, place.2)) =
      (firstPlaces seen places).map fun place => (f place.1, place.2) := by
  induction places with
  | nil => exact fun _ => rfl
  | cons place rest ih =>
    intro seen
    rw [List.map_cons, firstPlaces, firstPlaces]
    split
    · exact ih seen
    · exact congrArg (_ :: ·) (ih _)

/-- The places of the attributes that are properties of branches. -/
def inheritedPlaces (m : Model) : List Located :=
  firstPlaces (m.properties.map (·.name)) (branchPlaces m.parentBranch 0 m.allOf)

theorem inheritedPlaces_at (h : place ∈ inheritedPlaces m) : m.at? place.1 = some place.2 :=
  Kcl.branchPlaces_at (Kcl.mem_firstPlaces h)

/-- An attribute is a property of the model itself, or of a branch and not of the model. -/
theorem mem_attributePlaces (h : place ∈ attributePlaces m) :
    place ∈ rowPlaces .properties 0 m.properties ∨ place ∈ inheritedPlaces m := by
  rw [attributePlaces, firstPlaces_append, Kcl.rowPlaces_models] at h
  refine (List.mem_append.mp h).imp Kcl.mem_firstPlaces fun h => ?_
  have hseen : ∀ n, n ∈ seenWith [] m.properties ↔ n ∈ m.properties.map (·.name) := by
    intro n
    rw [mem_seenWith]
    exact or_iff_right List.not_mem_nil
  rwa [firstPlaces_congr hseen] at h

theorem firstPlaces_row (l : List Model) : ∀ seen index,
    firstPlaces seen (rowPlaces .properties index l) =
      (firsts seen index l).map fun entry => ([.property entry.1], entry.2) := by
  induction l with
  | nil => exact fun _ _ => rfl
  | cons m rest ih =>
    intro seen index
    rw [rowPlaces, firstPlaces, firsts]
    split
    · exact ih seen (index + 1)
    · exact congrArg (_ :: ·) (ih _ _)

/-- The position is that of one of the places or below it. -/
def AtPlace (places : List Located) (q : Position) : Prop :=
  ∃ place ∈ places, ∃ r, q = place.1 ++ r ∧ (place.2.at? r).isSome = true

theorem mem_visitsOfNew : .whole q ∈ visitsOfNew declared l ↔
    AtPlace (firstPlaces declared (rowPlaces .properties 0 l)) q := by
  rw [firstPlaces_row, visitsOfNew]
  constructor
  · intro h
    obtain ⟨entry, hentry, h⟩ := List.mem_flatMap.mp h
    obtain ⟨r, rfl, hr⟩ := mem_below.mp h
    exact ⟨_, List.mem_map.mpr ⟨entry, hentry, rfl⟩, r, rfl, (mem_visitsOf r _).mp hr⟩
  · rintro ⟨place, hplace, r, rfl, hr⟩
    obtain ⟨entry, hentry, rfl⟩ := List.mem_map.mp hplace
    exact List.mem_flatMap.mpr
      ⟨entry, hentry, mem_below.mpr ⟨r, rfl, (mem_visitsOf r _).mpr hr⟩⟩

theorem mem_visitsOfBranches (l : List Model) : ∀ declared index,
    .whole q ∈ visitsOfBranches parent declared index l ↔
      AtPlace (firstPlaces declared (branchPlaces parent index l)) q := by
  induction l with
  | nil => exact fun _ _ => ⟨fun h => absurd h List.not_mem_nil, fun ⟨_, h, _⟩ =>
      absurd h List.not_mem_nil⟩
  | cons branch rest ih =>
    intro declared index
    rw [visitsOfBranches, branchPlaces, firstPlaces_append]
    split
    · simp only [List.mem_cons, reduceCtorEq, false_or, ih]
      rfl
    · -- a place is in the properties of this branch or in a later branch, on both sides
      rw [List.mem_append, ih, mem_below, firstPlaces_map, List.map_map]
      have hmodels : (Prod.snd ∘ fun place : Located => (Edge.branch index :: place.1, place.2)) =
          Prod.snd := rfl
      rw [hmodels, Kcl.rowPlaces_models]
      constructor
      · rintro (⟨r, rfl, h⟩ | ⟨place, hplace, h⟩)
        · obtain ⟨place, hplace, r', rfl, hr⟩ := mem_visitsOfNew.mp h
          exact ⟨_, List.mem_append_left _ (List.mem_map.mpr ⟨place, hplace, rfl⟩), r', rfl, hr⟩
        · exact ⟨place, List.mem_append_right _ hplace, h⟩
      · rintro ⟨place, hplace, r, rfl, hr⟩
        rcases List.mem_append.mp hplace with hplace | hplace
        · obtain ⟨own, hown, rfl⟩ := List.mem_map.mp hplace
          exact Or.inl ⟨own.1 ++ r, rfl, mem_visitsOfNew.mpr ⟨own, hown, r, rfl, hr⟩⟩
        · exact Or.inr ⟨place, hplace, r, rfl, hr⟩

theorem visitsOfOwn_eq (m : Model) : visitsOfOwn m = visitsOf { m with allOf := [] } := by
  simp only [visitsOfOwn, visitsOf, visitsOfList, List.append_nil]

theorem mem_visitsOfRendered : .whole q ∈ visitsOfRendered m ↔
    (({ m with allOf := [] } : Model).at? q).isSome ∨ AtPlace (inheritedPlaces m) q := by
  rw [visitsOfRendered, List.mem_append, visitsOfOwn_eq, mem_visitsOf, mem_visitsOfBranches,
    inheritedPlaces]

/-! ## Spelled positions are visited -/

theorem own_part (he : ∀ index, e ≠ .branch index) :
    ({ m with allOf := [] } : Model).part? e = m.part? e := part?_setRow m [] he

theorem own_at (he : ∀ index, e ≠ .branch index) (r : Position) :
    ({ m with allOf := [] } : Model).at? (e :: r) = m.at? (e :: r) := by
  rw [at?, at?, own_part he]

theorem not_branch (h : ({ m with allOf := [] } : Model).part? e = some p) :
    ∀ index, e ≠ .branch index := by
  rintro index rfl
  simp [part?, Model.row] at h

theorem not_branch_of_inType (h : inType e = true) : ∀ index, e ≠ .branch index := by
  rintro index rfl
  simp [inType] at h

/-- What a visited type is written out of is visited. -/
theorem visited_part (hq : .whole q ∈ visitsOfRendered m) (he : inType e = true)
    (hsome : (m.at? (q ++ [e])).isSome = true) : .whole (q ++ [e]) ∈ visitsOfRendered m := by
  rw [mem_visitsOfRendered] at hq ⊢
  rcases hq with hq | ⟨place, hplace, r, rfl, hr⟩
  · left
    cases q with
    | nil =>
      rw [List.nil_append, own_at (not_branch_of_inType he)]
      exact hsome
    | cons e' rest =>
      obtain ⟨b, hb⟩ := Option.isSome_iff_exists.mp hq
      obtain ⟨p, hp, -⟩ := Option.bind_eq_some_iff.mp hb
      rw [List.cons_append, own_at (not_branch hp)]
      exact hsome
  · right
    refine ⟨place, hplace, r ++ [e], List.append_assoc _ _ _, ?_⟩
    rwa [List.append_assoc, at?_append, inheritedPlaces_at hplace] at hsome

theorem visited_declared (h : place ∈ attributePlaces m) :
    .whole place.1 ∈ visitsOfRendered m := by
  rw [mem_visitsOfRendered]
  rcases mem_attributePlaces h with hown | hinherited
  · obtain ⟨n, hp, -⟩ := Kcl.mem_rowPlaces hown
    have hat := Kcl.attributePlaces_at h
    rw [hp] at hat ⊢
    rw [own_at (by simp), hat]
    exact Or.inl rfl
  · exact Or.inr ⟨place, hinherited, [], (List.append_nil _).symm, rfl⟩

/-- **A spelled position is visited**, if it is not in the parent. -/
theorem visited_of_spells (h : Spells m q) (hout : ¬ Kcl.InParent m q) :
    .whole q ∈ visitsOfRendered m := by
  induction h with
  | itself => exact mem_visitsOfRendered.mpr (Or.inl rfl)
  | parent hparent => exact absurd ⟨_, [], hparent, rfl⟩ hout
  | declared hplace => exact visited_declared hplace
  | part hq he hsome ih =>
    refine visited_part (ih fun ⟨index, rest, hparent, heq⟩ => hout ?_) he hsome
    exact ⟨index, rest ++ [_], hparent, by rw [heq, List.cons_append]⟩

theorem name_mem_visitsOfBranches (l : List Model) : ∀ declared index,
    parent = some (index + n) → n < l.length →
      .name [.branch (index + n)] ∈ visitsOfBranches parent declared index l := by
  induction l generalizing n with
  | nil => exact fun _ _ _ hn => absurd hn (Nat.not_lt_zero _)
  | cons branch rest ih =>
    intro declared index hparent hn
    rw [visitsOfBranches]
    cases n with
    | zero =>
      rw [Nat.add_zero] at hparent ⊢
      rw [if_pos hparent]
      exact List.mem_cons_self
    | succ n =>
      have hindex : index + (n + 1) = index + 1 + n := by omega
      rw [hindex] at hparent ⊢
      -- the parent comes later
      have hne : parent ≠ some index := by
        rw [hparent]
        simp only [ne_eq, Option.some.injEq]
        omega
      rw [if_neg hne]
      exact List.mem_append_right _
        (ih _ (index + 1) hparent (Nat.lt_of_succ_lt_succ hn))

theorem parentBranch_lt (h : m.parentBranch = some index) : index < m.allOf.length := by
  rcases Option.or_eq_some_iff.mp h with h | ⟨-, h⟩
  · exact (List.findIdx?_eq_some_iff_findIdx_eq.mp h).1
  · exact (List.findIdx?_eq_some_iff_findIdx_eq.mp h).1

/-- The name of the parent is visited. -/
theorem parent_visited (h : m.parentBranch = some index) :
    .name [.branch index] ∈ visitsOfRendered m := by
  refine List.mem_append_right _ ?_
  have hparent : m.parentBranch = some (0 + index) := by rw [h, Nat.zero_add]
  have hmem := name_mem_visitsOfBranches m.allOf (m.properties.map (·.name)) 0 hparent
    (parentBranch_lt h)
  rwa [Nat.zero_add] at hmem

/-! ## Visited positions are written out -/

theorem collectNew_at (hkeyed : j.Keyed) (l : List Model) : ∀ declared index i,
    place ∈ firstPlaces declared (rowPlaces .properties index l) → place.2.at? r = some b →
    Later (collectNew target declared l i).2.2 j →
    ∃ n p', place.1 = [.property (index + n)] ∧
      (collectNew target declared l i).1[n]? = some p' ∧
      ∃ b', p'.at? r = some b' ∧ WrittenOut target j.statements b b' := by
  induction l with
  | nil => exact fun _ _ _ h => absurd h List.not_mem_nil
  | cons m rest ih =>
    intro declared index i h hat hlater
    rw [rowPlaces, firstPlaces] at h
    rw [collectNew] at hlater ⊢
    split at h
    · rename_i hseen
      rw [if_pos hseen] at hlater ⊢
      obtain ⟨n, p', hp, hn, hb⟩ := ih declared (index + 1) i h hat hlater
      exact ⟨n + 1, p', by rw [hp, Nat.add_right_comm, Nat.add_assoc], hn, hb⟩
    · rename_i hnew
      rw [if_neg hnew] at hlater ⊢
      rcases List.mem_cons.mp h with rfl | h
      · -- what is collected here is kept by what is collected after it
        have hrest := collectNew_later target rest (m.name :: declared) (collect target m i).2
        exact ⟨0, _, rfl, rfl, collect_at hkeyed hat (hrest.trans hlater)⟩
      · obtain ⟨n, p', hp, hn, hb⟩ := ih _ (index + 1) _ h hat hlater
        exact ⟨n + 1, p', by rw [hp, Nat.add_right_comm, Nat.add_assoc], hn, hb⟩

theorem collectBranches_at (hkeyed : j.Keyed) (l : List Model) : ∀ declared index i,
    place ∈ firstPlaces declared (branchPlaces parent index l) → place.2.at? r = some b →
    Later (collectBranches target parent declared index l i).2 j →
    ∃ k n branch, place.1 = [.branch (index + k), .property n] ∧
      (collectBranches target parent declared index l i).1[k]? = some branch ∧
      ∃ b', branch.at? (.property n :: r) = some b' ∧ WrittenOut target j.statements b b' := by
  induction l with
  | nil => exact fun _ _ _ h => absurd h List.not_mem_nil
  | cons branch rest ih =>
    intro declared index i h hat hlater
    -- a place in the rest counts from the next index
    have hnext : ∀ {k n : Nat} {p : Position}, p = [.branch (index + 1 + k), .property n] →
        p = [.branch (index + (k + 1)), .property n] := by
      intro k n p hp
      rw [hp, Nat.add_right_comm, Nat.add_assoc]
    rw [branchPlaces, firstPlaces_append] at h
    rw [collectBranches] at hlater ⊢
    split at h
    · rename_i hparent
      rw [if_pos hparent] at hlater ⊢
      obtain ⟨k, n, b₁, hp, hk, hb⟩ := ih _ (index + 1) _ h hat hlater
      exact ⟨k + 1, n, b₁, hnext hp, hk, hb⟩
    · rename_i hother
      rw [if_neg hother] at hlater ⊢
      rw [firstPlaces_map, List.map_map] at h
      rcases List.mem_append.mp h with h | h
      · -- a property of this branch: the rest comes later and keeps it
        obtain ⟨own, hown, rfl⟩ := List.mem_map.mp h
        obtain ⟨n, p', hp, hn, b', hb', hwritten⟩ := collectNew_at hkeyed branch.properties
          declared 0 i hown hat ((collectBranches_later target parent rest _ _ _).trans hlater)
        refine ⟨0, n, _, by simp [hp], rfl, b', ?_, hwritten⟩
        rw [at?, part?]
        exact (congrArg (Option.bind · (at? · r)) hn).trans hb'
      · have hmodels : (Prod.snd ∘ fun place : Located => (Edge.branch index :: place.1, place.2)) =
            Prod.snd := rfl
        rw [hmodels, Kcl.rowPlaces_models,
          ← collectNew_declared target branch.properties declared i] at h
        obtain ⟨k, n, b₁, hp, hk, hb⟩ := ih _ (index + 1) _ h hat hlater
        exact ⟨k + 1, n, b₁, hnext hp, hk, hb⟩

/-- The model `m'` is `m` with the name of its type as a file of the package `target` writes it. -/
structure NameWritten (target : String) (imports : List Import) (m m' : Model) : Prop where
  package : m'.type.package = m.type.package
  qualified : Qualified target imports m.type m'.type
  own : m.type.package = "" ∨ m.type.package = target → m'.type = m.type

theorem collectBranches_parent (hkeyed : j.Keyed) (l : List Model) : ∀ declared index i,
    parent = some (index + n) → l[n]? = some b →
    Later (collectBranches target parent declared index l i).2 j →
    ∃ b', (collectBranches target parent declared index l i).1[n]? = some b' ∧
      NameWritten target j.statements b b' := by
  induction l generalizing n with
  | nil => exact fun _ _ _ _ hb => absurd hb (by simp)
  | cons branch rest ih =>
    intro declared index i hparent hb hlater
    rw [collectBranches] at hlater ⊢
    cases n with
    | zero =>
      obtain rfl : branch = b := Option.some.inj hb
      rw [Nat.add_zero] at hparent
      rw [if_pos hparent] at hlater ⊢
      have hwritten : Later (qualify target branch.type i).2 j → NameWritten target j.statements
          branch { branch with type := (qualify target branch.type i).1 } := fun hl =>
        ⟨qualify_package _ i, qualify_qualified hl hkeyed, fun hown =>
          congrArg Prod.fst (qualify_own hown i)⟩
      -- the parent itself is qualified, and later branches keep what was imported for it
      generalize qualify target branch.type i = qualified at hwritten hlater ⊢
      exact ⟨_, rfl, hwritten ((collectBranches_later target parent rest _ _ _).trans hlater)⟩
    | succ n =>
      have hindex : index + (n + 1) = index + 1 + n := by omega
      have hne : parent ≠ some index := by
        rw [hparent]
        simp only [ne_eq, Option.some.injEq]
        omega
      rw [if_neg hne] at hlater ⊢
      exact ih _ (index + 1) _ (hindex ▸ hparent) hb hlater

/-- How the types that a rendered model spells are written out. -/
structure SpelledOut [Text.Transliteration] (target : String) (imports : List Import)
    (m m' : Model) : Prop where
  /-- The model was visited, no position of it twice. -/
  run : ∃ i i', runVisits target (visitsOfRendered m) (m, i) = (m', i')
  once : (positions (visitsOfRendered m)).Nodup
  spelled : ∀ q, Spells m' q → ¬ Kcl.InParent m' q → q ∈ positions (visitsOfRendered m) ∧
    ∃ b b', m.at? q = some b ∧ m'.at? q = some b' ∧ WrittenOut target imports b b'
  parent : ∀ index, m'.parentBranch = some index →
    [.branch index] ∈ positions (visitsOfRendered m) ∧
    ∃ b b', m.allOf[index]? = some b ∧ m'.allOf[index]? = some b' ∧
      NameWritten target imports b b'

theorem mem_positions (h : .whole q ∈ visits) : q ∈ positions visits :=
  List.mem_map.mpr ⟨_, h, rfl⟩

/-- The parts of a model but the branches are written out with it. -/
theorem own_writtenOut (hkeyed : j.Keyed)
    (hlater : Later (collect target { m with allOf := [] } i).2 j)
    (hq : (({ m with allOf := [] } : Model).at? q).isSome = true) (l : List Model) :
    ∃ b b', m.at? q = some b ∧
      ((collect target { m with allOf := [] } i).1.setRow l .branches).at? q = some b' ∧
      WrittenOut target j.statements b b' := by
  obtain ⟨b, hb⟩ := Option.isSome_iff_exists.mp hq
  obtain ⟨b', hb', hwritten⟩ := collect_at hkeyed hb hlater
  cases q with
  | nil =>
    obtain rfl := Option.some.inj hb
    obtain rfl := Option.some.inj hb'
    exact ⟨m, _, rfl, rfl,
      ⟨hwritten.package, hwritten.qualified, hwritten.array, hwritten.map, hwritten.plain⟩⟩
  | cons e rest =>
    obtain ⟨p, hp, -⟩ := Option.bind_eq_some_iff.mp hb
    have he := not_branch hp
    refine ⟨b, b', ?_, ?_, hwritten⟩
    · rw [← own_at he, hb]
    · rw [at?, part?_setRow _ l he]
      exact hb'

/-- **What is visited as a whole is written out.** -/
theorem collectRendered_at (hkeyed : j.Keyed) (hlater : Later (collectRendered target m i).2 j)
    (h : .whole q ∈ visitsOfRendered m) : ∃ b b', m.at? q = some b ∧
      (collectRendered target m i).1.at? q = some b' ∧ WrittenOut target j.statements b b' := by
  rw [collectRendered_eq] at hlater ⊢
  have hbranches := collectBranches_later target m.parentBranch m.allOf
    (m.properties.map (·.name)) 0 (collect target { m with allOf := [] } i).2
  rcases mem_visitsOfRendered.mp h with hq | ⟨place, hplace, r, rfl, hr⟩
  · exact own_writtenOut hkeyed (hbranches.trans hlater) hq _
  · obtain ⟨b, hb⟩ := Option.isSome_iff_exists.mp hr
    obtain ⟨k, n, branch, hp, hk, b', hb', hwritten⟩ :=
      collectBranches_at hkeyed m.allOf _ 0 _ hplace hb hlater
    refine ⟨b, b', ?_, ?_, hwritten⟩
    · rw [at?_append, inheritedPlaces_at hplace]
      exact hb
    · rw [hp, Nat.zero_add, List.cons_append, List.singleton_append, at?, part?, row_setRow, hk]
      exact hb'

/-- **The types that a rendered model spells are written out**, each once. -/
theorem collectRendered_spelledOut (hkeyed : j.Keyed)
    (hlater : Later (collectRendered target m i).2 j) :
    SpelledOut target j.statements m (collectRendered target m i).1 := by
  have halike := collectRendered_alike target m i
  refine ⟨⟨i, _, collectRendered_eq_runVisits target m i⟩, nodup_visitsOfRendered m,
    fun q hspells hout => ?_, fun index hparent => ?_⟩
  · have hvisited : .whole q ∈ visitsOfRendered m := by
      refine visited_of_spells (hspells.alike halike.symm) fun ⟨index, rest, hparent, heq⟩ => hout ?_
      exact ⟨index, rest, halike.parentBranch ▸ hparent, heq⟩
    exact ⟨mem_positions hvisited, collectRendered_at hkeyed hlater hvisited⟩
  · rw [← halike.parentBranch] at hparent
    refine ⟨List.mem_map.mpr ⟨_, parent_visited hparent, rfl⟩, ?_⟩
    have hb := List.getElem?_eq_getElem (parentBranch_lt hparent)
    rw [collectRendered_eq] at hlater ⊢
    obtain ⟨b', hb', hname⟩ := collectBranches_parent (n := index) hkeyed m.allOf _ 0 _
      (by rw [hparent, Nat.zero_add]) hb hlater
    exact ⟨_, b', hb, hb', hname⟩

/-- Rendered models, each with its types written out. -/
theorem collectAllRendered_spelledOut (hkeyed : j.Keyed) (l : List Model) : ∀ i,
    Later (collectAllRendered target l i).2 j →
    List.Forall₂ (SpelledOut target j.statements) l (collectAllRendered target l i).1 := by
  induction l with
  | nil => exact fun _ _ => .nil
  | cons m rest ih =>
    intro i hlater
    rw [collectAllRendered] at hlater ⊢
    have hrest := collectAllRendered_later target rest (collectRendered target m i).2
    exact .cons (collectRendered_spelledOut hkeyed (hrest.trans hlater)) (ih _ hlater)

end KclModels.Imports
