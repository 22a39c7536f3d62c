import KclModels.Proofs.Build.Flattening
import KclModels.Proofs.Build.Mirroring

/-!
# Files in two worlds

The steps from a definition to its file build further definitions: the bases that branches refer to,
and whatever is behind a branch whose properties are declared with the definition itself. That may
be a definition that was made on the way. It is built under the name that it was given, so an error
in it has a path that starts at this name: there, and nowhere else, two runs may fail differently.
-/

namespace KclModels

variable {tr : Text.Transliteration}

/-- The errors are the same, or their paths start at names that the document does not have. -/
def GenerationError.Displaced (docs : List String) (e e' : GenerationError) : Prop :=
  e' = e ∨ ∃ n n', n ∉ docs ∧ n' ∉ docs ∧ GenerationError.Moved n n' e e'

theorem GenerationError.Displaced.refl (docs : List String) (e : GenerationError) :
    GenerationError.Displaced docs e e := Or.inl rfl

/-- An error with its path moved nowhere is the same. -/
theorem GenerationError.Moved.eq {n : String} {e e' : GenerationError}
    (h : GenerationError.Moved n n e e') : e' = e := by
  cases h <;> rfl

variable {docs : List String} {W : World docs} {c c' : Schema} {n n' : String}

/-- Counterparts are the same name, or neither is a name of the document. -/
theorem World.Named.eq_or (h : W.Named n n') : n' = n ∨ n ∉ docs ∧ n' ∉ docs := by
  by_cases hn : n ∈ docs
  · exact Or.inl (h.name.symm.trans (W.mirrors.docs n hn).2)
  · refine Or.inr ⟨hn, fun hn' => hn (W.mirrors.mem_docs h.defines ?_)⟩
    rw [h.name]
    exact hn'

/-! ## Properties that several branches declare -/

namespace Model

open KclModels.Frame (names)

variable {ofBases ofBases' seen : List String} {fromBase : Bool} {b b' m m' : Model}

/-- The names that are kept: those that are new and left to no other branch, each of them once. -/
theorem mem_names_keepProperties (ofBases : List String) (fromBase : Bool) (l : List Model) :
    ∀ seen, (∀ x, x ∈ names (keepProperties ofBases fromBase seen l).1 ↔
      x ∈ names l ∧ (fromBase = true ∨ x ∉ ofBases) ∧ x ∉ seen) ∧
      (names (keepProperties ofBases fromBase seen l).1).Nodup := by
  induction l with
  | nil => exact fun _ => ⟨fun x => by simp [keepProperties, names], List.nodup_nil⟩
  | cons p rest ih =>
    intro seen
    rw [keepProperties]
    split
    · rename_i hkept
      -- the name was new, and is seen from here on
      obtain ⟨hmem, hnodup⟩ := ih (p.name :: seen)
      simp only [Bool.and_eq_true, Bool.or_eq_true, Bool.not_eq_true', List.contains_eq_mem,
        decide_eq_false_iff_not] at hkept
      refine ⟨fun x => ?_, List.nodup_cons.mpr ⟨fun h => ?_, hnodup⟩⟩
      · show x ∈ p.name :: names (keepProperties ofBases fromBase (p.name :: seen) rest).1 ↔
          x ∈ p.name :: names rest ∧ _
        rw [List.mem_cons, List.mem_cons, hmem, List.mem_cons]
        by_cases hx : x = p.name
        · subst hx
          exact iff_of_true (Or.inl rfl) ⟨Or.inl rfl, hkept⟩
        · simp only [hx, false_or]
      · exact ((hmem _).mp h).2.2 List.mem_cons_self
    · rename_i hdrop
      obtain ⟨hmem, hnodup⟩ := ih seen
      simp only [Bool.and_eq_true, Bool.or_eq_true, Bool.not_eq_true', List.contains_eq_mem,
        decide_eq_false_iff_not] at hdrop
      refine ⟨fun x => ?_, hnodup⟩
      show x ∈ names (keepProperties ofBases fromBase seen rest).1 ↔ x ∈ p.name :: names rest ∧ _
      rw [hmem, List.mem_cons]
      constructor
      · exact fun h => ⟨Or.inr h.1, h.2⟩
      · -- had it been new and left to no other branch, it would have been kept
        rintro ⟨rfl | hx, h⟩
        · exact absurd h hdrop
        · exact ⟨hx, h⟩

/-- Branches that match keep properties of the same names. -/
theorem dedupBranches_matches (hbases : ∀ x, x ∈ ofBases' ↔ x ∈ ofBases) {l l' : List Model}
    (h : List.Forall₂ (BranchMatches W) l l') : ∀ seen seen', (∀ x, x ∈ seen' ↔ x ∈ seen) →
      List.Forall₂ (BranchMatches W) (dedupBranches ofBases seen l)
        (dedupBranches ofBases' seen' l') := by
  induction h with
  | nil => exact fun _ _ _ => .nil
  | @cons b b' _ _ hb _ ih =>
    intro seen seen' hseen
    have hnames := fun x => hb.names.mem_iff (a := x)
    rw [dedupBranches, dedupBranches, hb.isBase]
    obtain ⟨hmem, hnodup⟩ := mem_names_keepProperties ofBases b.isBase b.properties seen
    obtain ⟨hmem', hnodup'⟩ := mem_names_keepProperties ofBases' b.isBase b'.properties seen'
    have hkept : ∀ x, x ∈ names (keepProperties ofBases' b.isBase seen' b'.properties).1 ↔
        x ∈ names (keepProperties ofBases b.isBase seen b.properties).1 := by
      intro x
      rw [hmem, hmem', hnames, hbases, hseen]
    refine .cons ⟨hb.complex, hb.isBase, hb.reference, ?_⟩ (ih _ _ fun x => ?_)
    · exact (List.perm_ext_iff_of_nodup hnodup' hnodup).mpr hkept
    · rw [(keepProperties_names ofBases b.isBase seen).1,
        (keepProperties_names ofBases' b.isBase seen').1, hseen, hkept]

/-! ## Branches -/

theorem BranchMatches.isReferenced (h : b.BranchMatches W b') :
    b'.isReferenced = b.isReferenced := by
  have href : b'.reference.isSome = b.reference.isSome := by
    have href := h.reference
    generalize b.reference = reference, b'.reference = reference' at href ⊢
    cases href <;> rfl
  rw [Model.isReferenced, Model.isReferenced, href, h.complex]

/-- Branches that match are found at the same number. -/
theorem findIdx?_matches {l l' : List Model} (h : List.Forall₂ (BranchMatches W) l l')
    {p : Model → Bool} (hp : ∀ b b', b.BranchMatches W b' → p b' = p b) :
    l'.findIdx? p = l.findIdx? p := by
  induction h with
  | nil => rfl
  | cons hb _ ih => rw [List.findIdx?_cons, List.findIdx?_cons, hp _ _ hb, ih]

/-- Models that match have the same branch for a parent. -/
theorem Matches.parentBranch (h : m.Matches W m') : m'.parentBranch = m.parentBranch := by
  rw [Model.parentBranch, Model.parentBranch, findIdx?_matches h.branches fun b b' hb => by
    rw [hb.isReferenced, hb.isBase], findIdx?_matches h.branches fun b b' hb => hb.isReferenced]

theorem BranchMatches.needsInlining (h : b.BranchMatches W b') (parent : Option Nat)
    (index : Nat) : Build.needsInlining parent index b' = Build.needsInlining parent index b := by
  have hempty : b'.properties.isEmpty = b.properties.isEmpty := by
    have hlength := h.names.length_eq
    rw [Frame.names, Frame.names, List.length_map, List.length_map] at hlength
    rw [Bool.eq_iff_iff, List.isEmpty_iff_length_eq_zero, List.isEmpty_iff_length_eq_zero, hlength]
  rw [Build.needsInlining, Build.needsInlining, h.complex, hempty]

/-- Branches still match if one of them is exchanged on both sides. -/
theorem branches_set {l l' : List Model} (h : List.Forall₂ (BranchMatches W) l l')
    (hb : b.BranchMatches W b') : ∀ index,
      List.Forall₂ (BranchMatches W) (l.set index b) (l'.set index b') := by
  induction h with
  | nil => exact fun _ => .nil
  | cons hc hrest ih =>
    intro index
    cases index with
    | zero => exact .cons hb hrest
    | succ index => exact .cons hc (ih index)

end Model

/-! ## Definitions in a file -/

namespace Build

variable {setting : Setting} {container container' : String}

theorem alike_definition (top top' : String) (hc : c.Matches W c') :
    Frame.Alike W top top' (definition setting top c container)
      (definition setting top' c' container') := by
  have hdepth : depthBound c' = depthBound c := by
    rw [depthBound, depthBound, hc.eq, Schema.size_rename]
  unfold definition Frame.build
  show Frame.Alike W top top' (buildIn setting (depthBound c) _)
    (buildIn setting (depthBound c') _)
  rw [hdepth]
  exact (Frame.buildsAlike_buildIn setting top top' _).alike W _ _
    (Frame.matches_root top top' hc container container')

/-- What counterparts name is built alike, with errors at the names that they have. -/
theorem mirrored_definition (hn : W.Named n n') (hc : c.Matches W c') :
    Mirrored W (definition setting n c container) (definition setting n' c' container')
      (GenerationError.Displaced docs) fun W₁ g g' => g.model.Matches W₁ g'.model := by
  refine ((alike_definition n n' hc).weaken fun e e' he => ?_).mono fun _ _ _ _ h => h.model
  rcases hn.eq_or with rfl | ⟨hn, hn'⟩
  · exact Or.inl he.eq
  · exact Or.inr ⟨n, n', hn, hn', he⟩

/-! ### Bases in place of branches -/

/-- Both branches refer to a base, or neither does. -/
theorem mirrored_baseOfBranch (hc : c.Matches W c') :
    Mirrored W (baseOfBranch c) (baseOfBranch c') (GenerationError.Displaced docs)
      fun W₁ base base' => Option.Rel (fun p p' => W₁.Named p.2.1 p'.2.1 ∧
        p.2.2.Matches W₁ p'.2.2) base base' := by
  obtain ⟨hname, hnamed⟩ := hc.referenceName
  unfold baseOfBranch
  cases href : c.reference with
  | none =>
    have href' : c'.reference = none := by rw [hc.eq, Schema.reference_rename, href]; rfl
    rw [href']
    exact mirrored_pure .none
  | some reference =>
    obtain ⟨href', hreach⟩ := hc.reference href
    rw [href']
    refine mirrored_registry (mirrored_target (fun _ => .refl docs _) hreach ?_)
    intro target target' htarget
    rw [Schema.referenceName, Schema.referenceName, href, href'] at hname
    simp only [Schema.referenceName, href, Option.bind_some] at hname hnamed
    -- both references lead to counterparts, of which both are bases or none
    rw [hname, htarget.eq, Schema.discriminator_rename, ← htarget.eq]
    split
    · exact mirrored_pure .none
    · cases hn : Reference.name? reference with
      | none => exact mirrored_pure .none
      | some n => exact mirrored_pure (.some ⟨hnamed n hn, htarget⟩)

theorem expanded_matches (setting : Setting) (reference reference' : String)
    {built built' : Model} (hn : W.Named n n') (h : built.Matches W built') :
    (expanded setting reference n built).BranchMatches W
      (expanded setting reference' n' built') := by
  obtain ⟨href, hbase, hnames, htype⟩ := expanded_facts setting reference n built
  obtain ⟨href', hbase', hnames', htype'⟩ := expanded_facts setting reference' n' built'
  refine ⟨?_, hbase'.trans hbase.symm, ?_, ?_⟩
  · rw [htype, htype', h.complex]
  · rw [href, href']
    exact .some hn
  · rw [hnames, hnames']
    exact h.names

theorem mirrored_expandBranches (branches : List Schema) :
    ∀ (W : World docs) (branches' : List Schema) (index : Nat) (allOf allOf' : List Model),
      List.Forall₂ (Schema.Matches W) branches branches' →
      List.Forall₂ (Model.BranchMatches W) allOf allOf' →
      Mirrored W (expandBranches setting container index allOf branches)
        (expandBranches setting container' index allOf' branches')
        (GenerationError.Displaced docs) fun W₁ p p' =>
          List.Forall₂ (Model.BranchMatches W₁) p.1 p'.1 ∧ ∀ x, x ∈ p'.2 ↔ x ∈ p.2 := by
  induction branches with
  | nil =>
    intro W branches' index allOf allOf' hc h
    cases hc
    exact mirrored_pure ⟨h, fun _ => .rfl⟩
  | cons branch rest ih =>
    intro W branches' index allOf allOf' hc h
    obtain _ | ⟨hbranch, hrest⟩ := hc
    refine (mirrored_baseOfBranch hbranch).bind fun W₁ hW base base' hbase => ?_
    have hrest₁ := hrest.imp fun _ _ h => h.mono hW
    have h₁ := h.imp fun _ _ h => Model.BranchMatches.mono h hW
    cases hbase with
    | none => exact ih W₁ _ (index + 1) allOf allOf' hrest₁ h₁
    | @some p p' hp =>
      obtain ⟨reference, name, target⟩ := p
      obtain ⟨reference', name', target'⟩ := p'
      obtain ⟨hn, htarget⟩ := hp
      refine (mirrored_definition hn htarget).bind fun W₂ hW₂ built built' hbuilt => ?_
      -- the models of the bases are counterparts as well, so the same names are added
      have hbase := expanded_matches setting reference reference' (hn.mono hW₂) hbuilt
      refine (ih W₂ _ (index + 1) _ _ (hrest₁.imp fun _ _ h => h.mono hW₂) (Model.branches_set
        (h₁.imp fun _ _ h => h.mono hW₂) hbase index)).bind ?_
      rintro W₃ hW₃ ⟨allOf₁, names⟩ ⟨allOf₁', names'⟩ ⟨hallOf, hnames⟩
      refine mirrored_pure ⟨hallOf, fun x => ?_⟩
      have hown := hbase.names.mem_iff (a := x)
      exact List.mem_append.trans ((or_congr hown (hnames x)).trans List.mem_append.symm)

theorem mirrored_expandSubtype {m m' : Model} (h : m.Matches W m') (hc : c.Matches W c')
    (subtype : Subtype) :
    Mirrored W (expandSubtype setting m c subtype) (expandSubtype setting m' c' subtype)
      (GenerationError.Displaced docs) fun W₁ m m' => m.Matches W₁ m' := by
  refine (mirrored_expandBranches _ W _ 0 _ _ hc.allOf h.branches).bind ?_
  rintro W₁ hW ⟨allOf, names⟩ ⟨allOf', names'⟩ ⟨hallOf, hnames⟩
  have h₁ := h.mono hW
  exact mirrored_pure ⟨⟨h₁.complex, h₁.isBase, h₁.reference, h₁.names⟩,
    Model.dedupBranches_matches hnames hallOf [] [] fun _ => .rfl⟩

/-! ### Properties of other branches -/

/-- What branches refer to is built alike, whatever it is put into. -/
theorem mirrored_inlineBranches (parent : Option Nat) (branches : List Model) :
    ∀ (W : World docs) (branches' : List Model) (f f' : Frame) (index : Nat),
      List.Forall₂ (Model.BranchMatches W) branches branches' →
      Mirrored W (inlineBranches setting parent f index branches)
        (inlineBranches setting parent f' index branches') (GenerationError.Displaced docs)
        fun _ _ _ => True := by
  induction branches with
  | nil =>
    intro W branches' f f' index h
    cases h
    exact mirrored_pure trivial
  | cons branch rest ih =>
    intro W branches' f f' index h
    obtain _ | ⟨hbranch, hrest⟩ := h
    rename_i branch' rest'
    unfold inlineBranches
    rw [hbranch.needsInlining]
    -- both branches need properties or neither, and they refer to counterparts
    have hname : Option.Rel W.Named
        (if needsInlining parent index branch then branch.reference else none)
        (if needsInlining parent index branch then branch'.reference else none) := by
      split
      · exact hbranch.reference
      · exact .none
    generalize (if needsInlining parent index branch then branch.reference else none) = name,
      (if needsInlining parent index branch then branch'.reference else none) = name' at hname ⊢
    cases hname with
    | none => exact ih W _ f f' (index + 1) hrest
    | @some n n' hn =>
      have hreach : W.left.registry.Reaches (Reference.toDefinition n) := by
        intro m hm
        obtain rfl := Option.some.inj (hm.symm.trans hn.parsed)
        exact hn.defines
      have hrename : Reference.rename W.name (Reference.toDefinition n) =
          Reference.toDefinition n' := by
        rw [Reference.rename_of_name? hn.parsed, hn.name]
      dsimp only
      refine mirrored_registry ?_
      rw [← hrename]
      refine mirrored_target (fun _ => .refl docs _) hreach ?_
      intro target target' htarget
      refine (mirrored_definition hn htarget).bind fun W₁ hW built built' _ => ?_
      exact ih W₁ _ _ _ (index + 1) (hrest.imp fun _ _ h => h.mono hW)

/-! ### Files -/

theorem asBase_matches (setting : Setting) (name : String) {f f' : Frame}
    (h : f.model.Matches W f'.model) :
    (asBase setting name f).model.Matches W (asBase setting name f').model := by
  unfold asBase
  split
  · exact ⟨⟨h.complex, rfl, h.reference, h.names⟩, h.branches⟩
  · exact h

theorem mirrored_fileFrame {name : String}
    (h : Option.Rel (Schema.Matches W) (W.left.registry.get? name) (W.right.registry.get? name)) :
    Mirrored W (fileFrame setting name) (fileFrame setting name) (GenerationError.Displaced docs)
      fun _ _ _ => True := by
  unfold fileFrame
  refine mirrored_registry ?_
  generalize W.left.registry.get? name = s, W.right.registry.get? name = s' at h ⊢
  cases h with
  | none => exact mirrored_throw (.refl docs _)
  | some hc =>
    refine ((alike_definition name name hc).weaken fun _ _ he => Or.inl he.eq).bind ?_
    intro W₁ hW f f' hf
    have hbase := asBase_matches setting name hf.model
    -- the last step is the same whether or not bases were put in place before
    have hinline : ∀ (W₂ : World docs) (m m' : Model) (f f' : Frame), m.Matches W₂ m' →
        Mirrored W₂ (inlineBranches setting m.parentBranch f 0 m.allOf)
          (inlineBranches setting m'.parentBranch f' 0 m'.allOf)
          (GenerationError.Displaced docs) fun _ _ _ => True := by
      intro W₂ m m' f f' h
      rw [h.parentBranch]
      exact mirrored_inlineBranches _ _ W₂ _ f f' 0 h.branches
    dsimp only
    split
    · refine (mirrored_expandSubtype hbase (hc.mono hW) _).bind fun W₂ _ m m' hm => ?_
      refine Mirrored.bind (Q := fun W₃ g g' => g.model.Matches W₃ g'.model) (mirrored_pure hm) ?_
      exact fun W₃ _ g g' hg => hinline W₃ _ _ g g' hg
    · refine Mirrored.bind (Q := fun W₃ g g' => g.model.Matches W₃ g'.model)
        (mirrored_pure hbase) ?_
      exact fun W₃ _ g g' hg => hinline W₃ _ _ g g' hg

/-- **The file of a definition is built in both worlds or in neither.** -/
theorem mirrored_file {name : String}
    (h : Option.Rel (Schema.Matches W) (W.left.registry.get? name) (W.right.registry.get? name)) :
    Mirrored W (file setting name) (file setting name) (GenerationError.Displaced docs)
      fun _ _ _ => True :=
  (mirrored_fileFrame h).bind fun _ _ _ _ _ => mirrored_registry <|
    (mirrored_warnAll _ _).bind fun _ _ _ _ _ => mirrored_pure trivial

end Build

end KclModels
