import KclModels.Proofs.Build.Flattening
import KclModels.Proofs.Build.Keeping
import KclModels.Proofs.Build.Origins

/-!
# What is taken out of a file's frame

Whatever a document says, the models taken out of a frame were made for it, and each is declared
under the name that it was made under. References need not lead anywhere for this. And what holds of
a registry however many definitions are made in frames holds of it when a file is done: so it is with
the shape of the names given out.
-/

namespace KclModels

open Build KclModels.Frame

variable {tr : Text.Transliteration}
variable {setting : Setting} {Sound : Registry → Prop} {r r' : Registry} {s s' : Session}
variable {f f' : Frame} {c : Schema} {name container n : String} {m : Model}

/-! ## What making definitions keeps -/

/-- The property of registries is kept when a definition is made in a frame. -/
def Registry.KeptByHoists [Text.Transliteration] (Sound : Registry → Prop) : Prop :=
  ∀ (r : Registry) (f : Frame) (base : String) (c : Schema), Sound r →
    Sound (r.hoist (hoistBase f base) c).2

/-- Nothing else is asked of schemas and errors. -/
theorem fits_of_hoists (h : Registry.KeptByHoists Sound) :
    Fits setting Sound (fun _ _ => True) fun _ => True where
  child _ _ := trivial
  grows _ _ := trivial
  plain _ _ := trivial
  rewrite _ _ _ _ := trivial
  hoist f base hr _ := ⟨h _ f base _ hr, trivial⟩
  type _ _ _ := trivial
  shape _ _ _ := trivial
  follow _ _ _ _ := trivial
  target _ _ _ _ _ := trivial
  mixedItems _ := trivial
  complexEnumValue _ := trivial

/-- A definition that is built keeps what making definitions keeps. -/
theorem definition_keeps (h : Registry.KeptByHoists Sound) (hs : Sound s.registry)
    (hb : (definition setting name c container).Gives s f s') : Sound s'.registry :=
  ((buildIn_meets (fits_of_hoists h) (Or.inl trivial) hs trivial).1 f s' hb).sound

theorem expandBranches_keeps (h : Registry.KeptByHoists Sound) {branches : List Schema} :
    ∀ {index : Nat} {allOf : List Model} {s s' : Session} {result : List Model × List String},
    Sound s.registry → (expandBranches setting container index allOf branches).Gives s result s' →
    Sound s'.registry := by
  induction branches with
  | nil =>
    intro index allOf s s' result hs he
    rw [expandBranches, gives_pure] at he
    exact he.2 ▸ hs
  | cons branch rest ih =>
    intro index allOf s s' result hs he
    rcases expandBranches_cons_cases he with ⟨-, he⟩ |
      ⟨_, _, _, _, s₁, _, -, -, -, -, hb, he, -⟩
    · exact ih hs he
    · exact ih (definition_keeps h hs hb) he

/-! ## Models that were taken out -/

/-- The models taken out of the frame were made, and each is declared under its name. -/
structure Frame.Extracts (r : Registry) (f : Frame) : Prop where
  sorted : Assoc.Sorted f.extras
  made : ∀ n m, (n, m) ∈ f.extras → n ∈ r.hoisted ∧ m.name = n ∧ m.declaredName = n

theorem Frame.Extracts.mono (h : f.Extracts r) (hr : r.Grows r') : f.Extracts r' :=
  ⟨h.sorted, fun n m hm => (h.made n m hm).imp_left (hr.hoisted n)⟩

/-- What is built of a definition, whatever it refers to. -/
theorem definition_extracts (h : (definition setting name c container).Gives s f s') :
    s.registry.Grows s'.registry ∧ f.Extracts s'.registry ∧ f.model.name = name ∧
      f.name = name := by
  have hb := definition_built (Schema.known_of_anything c) h
  refine ⟨hb.grows, ⟨hb.linked.sorted, fun n m hm => ?_⟩,
    hb.titled.1.trans hb.carries.name, hb.carries.name⟩
  have htaken := hb.linked.extras n m hm
  exact ⟨htaken.hoisted, htaken.name, htaken.declaredName⟩

/-- A frame that declares the properties of a branch takes over what was taken out for those. -/
theorem Frame.Extracts.inlined {built : Frame} {index : Nat} {branch : Model} (h : f.Extracts r)
    (hb : built.Extracts r) : (inlined f index branch built).Extracts r := by
  refine ⟨h.sorted.mergeSorted, fun n m hm => ?_⟩
  rcases Assoc.mem_mergeSorted hm with hm | hm
  · exact h.made n m hm
  · exact hb.made n m hm

theorem inlineBranches_extracts (h : Registry.KeptByHoists Sound) {parent : Option Nat}
    {branches : List Model} : ∀ {index : Nat} {f f' : Frame} {s s' : Session},
    Sound s.registry → f.Extracts s.registry →
    (inlineBranches setting parent f index branches).Gives s f' s' →
    f'.Extracts s'.registry ∧ Sound s'.registry := by
  induction branches with
  | nil =>
    intro index f f' s s' hs hf hi
    rw [inlineBranches, gives_pure] at hi
    obtain ⟨rfl, rfl⟩ := hi
    exact ⟨hf, hs⟩
  | cons branch rest ih =>
    intro index f f' s s' hs hf hi
    rcases inlineBranches_cons_cases hi with ⟨-, hi⟩ | ⟨_, _, built, s₁, -, -, -, hb, hi⟩
    · exact ih hs hf hi
    · obtain ⟨hgrows, hbuilt, -, -⟩ := definition_extracts hb
      exact ih (definition_keeps h hs hb) ((hf.mono hgrows).inlined hbuilt) hi

/-- **The frame of a file has taken out what was made**, each model under its name. -/
theorem fileFrame_extracts (h : Registry.KeptByHoists Sound) (hs : Sound s.registry)
    (hf : (fileFrame setting name).Gives s f s') :
    s.registry.Grows s'.registry ∧ f.Extracts s'.registry ∧ Sound s'.registry ∧
      f.model.name = name := by
  obtain ⟨c, built, s₁, s₂, m, -, hb, hexpand, hinline⟩ := fileFrame_cases hf
  obtain ⟨hgrows, hbuilt, hname, -⟩ := definition_extracts hb
  have hs₁ := definition_keeps h hs hb
  obtain ⟨m₀, hbase, hname₀, -⟩ := asBase_facts setting name built
  rw [hbase] at hexpand hinline
  -- putting bases in place takes nothing out of the frame
  have hstep : s₁.registry.Grows s₂.registry ∧ Sound s₂.registry ∧ m.name = m₀.name := by
    rcases hexpand with ⟨-, rfl, rfl⟩ | ⟨subtype, -, he⟩
    · exact ⟨.refl _, hs₁, rfl⟩
    · obtain ⟨allOf, names, hex, rfl⟩ := expandSubtype_cases he
      exact ⟨expandBranches_grows hex, expandBranches_keeps h hs₁ hex, rfl⟩
  obtain ⟨hgrows₂, hs₂, hm⟩ := hstep
  have hbefore : Frame.Extracts s₂.registry { built with model := m } :=
    ⟨hbuilt.sorted, (hbuilt.mono hgrows₂).made⟩
  obtain ⟨hextracts, hs₃⟩ := inlineBranches_extracts h hs₂ hbefore hinline
  obtain ⟨hgrows₃, -, hfacts, -⟩ := inlined_facts hinline
  refine ⟨hgrows.trans (hgrows₂.trans hgrows₃), hextracts, hs₃, ?_⟩
  rw [congrArg ModelFacts.name hfacts]
  exact hm.trans (hname₀.trans hname)

end KclModels
