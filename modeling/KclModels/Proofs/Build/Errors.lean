import KclModels.Proofs.Build.FileLinks
import KclModels.Proofs.Build.Keeping
import KclModels.Proofs.Resolve.Errors

/-!
# How building fails

Where every reference comes to an end, building fails for what a definition says and never for a
reference: types that are not supported, items beside one schema for all of them, or values of an
enum that have no literal form.

This goes on to hold while definitions are made. One is made of a schema whose references come to an
end, under a name that a reference to it can be written for, and the place of the schema then refers
to that name.
-/

namespace KclModels

variable {tr : Text.Transliteration}

/-- What a definition says has no form in a file. -/
def GenerationError.Expected : GenerationError → Prop
  | .type (.unsupported ..) => True
  | .mixedItems _ => True
  | .complexEnumValue _ => True
  | _ => False

theorem TypeError.Unsupported.expected {e : TypeError} (h : e.Unsupported) :
    (GenerationError.type e).Expected := by
  obtain ⟨path, types, format, rfl⟩ := h
  trivial

/-- A plain name can be referred to. -/
theorem Reference.name?_of_plain {n : String} (h : Naming.Plain n) :
    Reference.name? (Reference.toDefinition n) = some n := by
  obtain ⟨c, cs, hcons, -⟩ := h.head
  refine name?_toDefinition (fun hempty => ?_) fun hm => absurd (h.chars _ hm) (by decide)
  rw [hempty] at hcons
  exact absurd hcons (by simp)

namespace Registry

variable {lone : Prop} {r r' : Registry} {c d : Schema}

/-- Every reference in the schema comes to an end; under `lone` it has no values of its own. -/
structure Fine (lone : Prop) (r : Registry) (c : Schema) : Prop where
  grounded : c.Grounded r
  unextended : lone → c.Unextended

/-- All definitions are fine, and those that were made can be referred to. -/
structure Sane (lone : Prop) (r : Registry) : Prop where
  fine : ∀ n c, r.get? n = some c → r.Fine lone c
  named : ∀ n ∈ r.hoisted, Reference.name? (Reference.toDefinition n) = some n

theorem Sane.grounded (h : r.Sane lone) : r.Grounded := fun n c hc => (h.fine n c hc).grounded

theorem Fine.child (h : r.Fine lone c) (hd : d ∈ c.children) : r.Fine lone d where
  grounded := Schema.Everywhere.child h.grounded hd
  unextended hl := Schema.Everywhere.child (h.unextended hl) hd

theorem Fine.mono (h : r.Fine lone c) (hr : r.Grows r') : r'.Fine lone c where
  grounded := Schema.Everywhere.mono h.grounded fun _ ht reference href => by
    obtain ⟨d, hd⟩ := ht reference href
    exact ⟨d, hd.mono hr.keeps⟩
  unextended := h.unextended

theorem fine_of_plain (href : c.reference = none) (hc : ∀ d ∈ c.children, r.Fine lone d) :
    r.Fine lone c where
  grounded := Schema.everywhere_of_children (fun reference h => by simp [href] at h)
    fun d hd => (hc d hd).grounded
  unextended hl := Schema.everywhere_of_children (fun h => by simp [href] at h)
    fun d hd => (hc d hd).unextended hl

theorem Fine.rewrite (h : r.Fine lone c) (href : d.reference = c.reference)
    (hvalue : ∀ v, d.additionalProperties = some (.schema v) →
      ∃ w, c.additionalProperties = some (.schema w))
    (hd : ∀ e ∈ d.children, e ∈ c.children ∨ r.Fine lone e) : r.Fine lone d := by
  have hchild : ∀ e ∈ d.children, r.Fine lone e := fun e he => (hd e he).elim h.child id
  refine ⟨Schema.everywhere_of_children (fun reference hr => ?_) fun e he => (hchild e he).grounded,
    fun hl => Schema.everywhere_of_children (fun hsome v hv => ?_)
      fun e he => (hchild e he).unextended hl⟩
  · exact Schema.Everywhere.here h.grounded reference (href ▸ hr)
  · obtain ⟨w, hw⟩ := hvalue v hv
    exact Schema.Everywhere.here (h.unextended hl) (href ▸ hsome) w hw

/-- The reference to a definition that can be referred to comes to an end. -/
theorem fine_referenceTo {n : String} (hn : Reference.name? (Reference.toDefinition n) = some n)
    (hc : r.get? n = some c) (hfine : r.Fine lone c) : r.Fine lone (.referenceTo n) := by
  have hends : ∃ d, r.Leads (Reference.toDefinition n) d := by
    cases href : c.reference with
    | none => exact ⟨c, .stop hn hc href⟩
    | some next =>
      obtain ⟨d, hd⟩ := Schema.Everywhere.here hfine.grounded next href
      exact ⟨d, .next hn hc href hd⟩
  refine ⟨Schema.everywhere_of_children (fun reference href => ?_) ?_,
    fun _ => Schema.everywhere_of_children (fun _ v hv => by simp [Schema.referenceTo] at hv) ?_⟩
  · exact Option.some.inj href ▸ hends
  · exact fun d hd => absurd hd List.not_mem_nil
  · exact fun d hd => absurd hd List.not_mem_nil

theorem Sane.hoist (h : r.Sane lone) (hc : r.Fine lone c) (f : Frame) (base : String) :
    (r.hoist (Build.hoistBase f base) c).2.Sane lone ∧
      (r.hoist (Build.hoistBase f base) c).2.Fine lone
        (.referenceTo (r.hoist (Build.hoistBase f base) c).1) := by
  have hgrows := hoist_grows r (Build.hoistBase f base) c
  have hname := Reference.name?_of_plain (Frame.plain_hoist r f base c)
  refine ⟨⟨fun n d hd => ?_, fun n hn => ?_⟩, fine_referenceTo hname ?_ (hc.mono hgrows)⟩
  · rw [get?_hoist] at hd
    split at hd
    · exact Option.some.inj hd ▸ hc.mono hgrows
    · exact (h.fine n d hd).mono hgrows
  · rw [hoisted_hoist] at hn
    rcases List.mem_append.mp hn with hn | hn
    · exact h.named n hn
    · exact List.mem_singleton.mp hn ▸ hname
  · rw [get?_hoist, if_pos rfl]

theorem Sane.resolve (h : r.Sane lone) (hc : r.Fine lone c) {reference : String}
    (href : c.reference = some reference) :
    ∃ d, r.resolve reference = .ok d ∧ r.Fine lone d := by
  obtain ⟨d, hd⟩ := Schema.Everywhere.here hc.grounded reference href
  obtain ⟨n, hn⟩ := hd.exists_stored
  exact ⟨d, resolve_of_leads hd, h.fine n d hn⟩

/-- A name that has a definition and that can be referred to. -/
def Named (r : Registry) (n : String) : Prop :=
  Reference.name? (Reference.toDefinition n) = some n ∧ (r.get? n).isSome = true

theorem Leads.named {reference n : String} (h : r.Leads reference c)
    (hn : Reference.name? reference = some n) : r.Named n := by
  obtain ⟨m, d, hm, hd⟩ : ∃ m d, Reference.name? reference = some m ∧ r.get? m = some d := by
    cases h with
    | stop hn hc _ => exact ⟨_, _, hn, hc⟩
    | next hn hc _ _ => exact ⟨_, _, hn, hc⟩
  obtain rfl := Option.some.inj (hn.symm.trans hm)
  exact ⟨by rw [← Reference.eq_toDefinition hn]; exact hn, by rw [hd]; rfl⟩

theorem Fine.known (h : r.Fine lone c) : c.Known r.Named unasked :=
  Schema.known_unasked.mpr <| Schema.Everywhere.mono h.grounded fun t ht n hn => by
    obtain ⟨reference, href, hname⟩ := Option.bind_eq_some_iff.mp hn
    obtain ⟨d, hd⟩ := ht reference href
    exact hd.named hname

end Registry

namespace Build

variable {lone : Prop} {setting : Setting} {s s' : Session} {f : Frame} {c : Schema}

/-- What is expected; the depth may be used up only where references have values of their own. -/
def Fails (lone : Prop) (e : GenerationError) : Prop := e.Expected ∨ (¬ lone ∧ e = .endless)

theorem fits_fails (setting : Setting) (lone : Prop) :
    Frame.Fits setting (Registry.Sane lone) (Registry.Fine lone) (Fails lone) where
  child h hd := h.child hd
  grows h hr := h.mono hr
  plain href hc := Registry.fine_of_plain href hc
  rewrite h href hvalue hd := h.rewrite href hvalue hd
  hoist f base hr hc := hr.hoist hc f base
  type hr hc he := Or.inl (Resolver.resolve_unsupported hr.grounded hc.grounded he).expected
  shape hr hc he := by
    obtain ⟨shape, hshape⟩ := Shape.ofSchema_of_grounded hr.grounded hc.grounded
    exact absurd (hshape.symm.trans he) (by simp)
  follow hr hc href he := by
    obtain ⟨d, hd, -⟩ := hr.resolve hc href
    exact absurd (hd.symm.trans he) (by simp)
  target hr hc href hd he := by
    obtain ⟨d, hd', hfine⟩ := hr.resolve hc href
    obtain rfl := Except.ok.inj (hd.symm.trans hd')
    exact Or.inl (Resolver.resolve_unsupported hr.grounded hfine.grounded he).expected
  mixedItems _ := Or.inl trivial
  complexEnumValue _ := Or.inl trivial

/-- **Building a schema whose references come to an end fails as expected.** -/
theorem build_meets (hs : s.registry.Sane lone) (hc : s.registry.Fine lone f.schema) :
    (f.build setting).Meets s (Fails lone)
      (Frame.Kept (Registry.Sane lone) (Registry.Fine lone) f s) := by
  refine Frame.buildIn_meets (fits_fails setting lone) ?_ hs hc
  by_cases hlone : lone
  · exact Or.inr ⟨f.rank_lt_depthBound, fun r c h => (h.unextended hlone).here⟩
  · exact Or.inl (Or.inr ⟨hlone, rfl⟩)

/-! ## Files -/

variable {known : String → Prop} {name container : String}

theorem definition_meets (hs : s.registry.Sane lone) (hc : s.registry.Fine lone c) :
    (definition setting name c container).Meets s (Fails lone) fun f s' =>
      (s.registry.Grows s'.registry ∧ s'.registry.Sane lone) ∧
        (definition setting name c container).Gives s f s' :=
  (Meets.gives (build_meets hs hc)).mono fun _ _ h => ⟨⟨h.1.grows, h.1.sound⟩, h.2⟩

theorem baseOfBranch_meets (hs : s.registry.Sane lone) (hc : s.registry.Fine lone c) :
    (baseOfBranch c).Meets s (Fails lone) fun base s' => s = s' ∧
      ∀ reference name target, base = some (reference, name, target) →
        s.registry.Fine lone target := by
  unfold baseOfBranch
  split
  · exact meets_pure ⟨rfl, fun _ _ _ h => by simp at h⟩
  · rename_i reference href
    obtain ⟨d, hd, hfine⟩ := hs.resolve hc href
    refine meets_bind (Q := fun r s' => r = s.registry ∧ s = s') (meets_registry ⟨rfl, rfl⟩) ?_
    rintro r _ ⟨rfl, rfl⟩
    -- the reference of the branch leads to `d`, so that following it does not fail
    refine meets_bind (Q := fun t s' => t = d ∧ s = s') (meets_ofReference (fun t ht => ?_)
      fun e he => ?_) ?_
    · exact ⟨Except.ok.inj (ht.symm.trans hd), rfl⟩
    · exact absurd (hd.symm.trans he) (by simp)
    · rintro _ _ ⟨rfl, rfl⟩
      split
      · exact meets_pure ⟨rfl, fun _ _ _ h => by simp at h⟩
      · refine meets_pure ⟨rfl, fun reference' name target h => ?_⟩
        obtain ⟨n, -, heq⟩ := Option.map_eq_some_iff.mp h
        obtain ⟨-, -, rfl⟩ := by simpa using heq
        exact hfine

theorem expandBranches_meets {branches : List Schema} :
    ∀ {index : Nat} {allOf : List Model} {s : Session}, s.registry.Sane lone →
    (∀ c ∈ branches, s.registry.Fine lone c) →
    (expandBranches setting container index allOf branches).Meets s (Fails lone) fun _ s' =>
      s.registry.Grows s'.registry ∧ s'.registry.Sane lone := by
  induction branches with
  | nil => exact fun hs _ => meets_pure ⟨.refl _, hs⟩
  | cons branch rest ih =>
    intro index allOf s hs hc
    have hrest : ∀ c ∈ rest, s.registry.Fine lone c := fun c hm => hc c (List.mem_cons_of_mem _ hm)
    unfold expandBranches
    refine meets_bind (baseOfBranch_meets hs (hc branch List.mem_cons_self)) ?_
    rintro base _ ⟨rfl, htarget⟩
    split
    · exact ih hs hrest
    · rename_i reference name target
      refine meets_bind (definition_meets hs (htarget reference name target rfl)) ?_
      rintro built s₁ ⟨⟨hgrows, hs₁⟩, -⟩
      refine meets_bind (ih hs₁ fun c hm => (hrest c hm).mono hgrows) ?_
      rintro ⟨models, names⟩ s₂ ⟨hgrows₂, hs₂⟩
      exact meets_pure ⟨hgrows.trans hgrows₂, hs₂⟩

theorem expandSubtype_meets {m : Model} {subtype : Subtype} (hs : s.registry.Sane lone)
    (hc : s.registry.Fine lone c) : (expandSubtype setting m c subtype).Meets s (Fails lone)
      fun m' s' => (s.registry.Grows s'.registry ∧ s'.registry.Sane lone) ∧
        (expandSubtype setting m c subtype).Gives s m' s' := by
  refine Meets.gives (meets_bind (expandBranches_meets hs fun d hd =>
    hc.child (Schema.branch_mem_children hd)) ?_)
  rintro ⟨models, names⟩ s₁ h
  exact meets_pure h

/-- The branches of a linked file refer to what can be built. -/
theorem inlineBranches_meets {expands : Nat → Prop} {noted : Prop} {parent : Option Nat}
    {branches : List Model} : ∀ {index : Nat} {f : Frame} {s : Session}, s.registry.Sane lone →
    (∀ n, known n → Reference.name? (Reference.toDefinition n) = some n ∧
      ∃ d, s.registry.get? n = some d ∧ d.Known known unasked) →
    (∀ i : Nat, branches[i]? = f.model.allOf[index + i]?) →
    FileLinked known expands noted unasked name s.registry f →
    (inlineBranches setting parent f index branches).Meets s (Fails lone) fun _ _ => True := by
  induction branches with
  | nil => exact fun _ _ _ _ => meets_pure trivial
  | cons branch rest ih =>
    intro index f s hs hstored hsame hf
    -- the branches that are left are still those of the frame, from the next place on
    have hrest : ∀ i : Nat, rest[i]? = f.model.allOf[index + 1 + i]? := by
      intro i
      rw [show index + 1 + i = index + (i + 1) by omega, ← hsame (i + 1)]
      rfl
    have hbranch : f.model.allOf[index]? = some branch := (hsame 0).symm
    unfold inlineBranches
    split
    · exact ih hs hstored hrest hf
    · rename_i n hn
      have href : branch.reference = some n := by
        split at hn
        · exact hn
        · simp at hn
      have hknows : f.Knows known n := hf.knows_branch hbranch href
      have hfine : s.registry.Fine lone (.referenceTo n) := by
        -- a branch refers to a definition of the document or to one that the frame took out
        rcases hknows with hk | hk
        · obtain ⟨hname, d, hd, -⟩ := hstored n hk
          exact Registry.fine_referenceTo hname hd (hs.fine n d hd)
        · obtain ⟨⟨n', m⟩, hm, rfl⟩ := List.mem_map.mp hk
          obtain ⟨d, hd, -⟩ := (hf.extras n' m hm).stored
          exact Registry.fine_referenceTo (hs.named n' (hf.extras n' m hm).hoisted) hd
            (hs.fine n' d hd)
      obtain ⟨target, ht, htarget⟩ := hs.resolve hfine rfl
      refine meets_bind (Q := fun r s' => r = s.registry ∧ s = s') (meets_registry ⟨rfl, rfl⟩) ?_
      rintro r _ ⟨rfl, rfl⟩
      refine meets_bind (Q := fun t s' => t = target ∧ s = s')
        (meets_ofReference (fun t ht' => ?_) fun e he => ?_) ?_
      · exact ⟨Except.ok.inj (ht'.symm.trans ht), rfl⟩
      · exact absurd (ht.symm.trans he) (by simp)
      rintro _ _ ⟨rfl, rfl⟩
      refine meets_bind (definition_meets hs htarget) ?_
      rintro built s₁ ⟨⟨hgrows, hs₁⟩, hgives⟩
      have hbuilt := hf.branch_built (fun n hk => (hstored n hk).2) hbranch href ht hgives
      refine ih hs₁ (fun n hk => ?_) (fun i => ?_) (hf.inline hbuilt hbranch)
      · obtain ⟨hname, d, hd, hknown⟩ := hstored n hk
        exact ⟨hname, d, hgrows.keeps n d hd, hknown⟩
      · rw [hrest i]
        exact (List.getElem?_set_ne (by omega)).symm

/-- **The frame of a file is made, or fails as expected.** -/
theorem fileFrame_meets (hs : s.registry.Sane lone) (hc : s.registry.get? name = some c) :
    (fileFrame setting name).Meets s (Fails lone) fun _ _ => True := by
  have hall : ∀ n d, s.registry.get? n = some d → d.Known s.registry.Named unasked :=
    fun n d hd => (hs.fine n d hd).known
  unfold fileFrame
  refine meets_bind (Q := fun r s' => r = s.registry ∧ s = s') (meets_registry ⟨rfl, rfl⟩) ?_
  rintro r _ ⟨rfl, rfl⟩
  rw [hc]
  refine meets_bind (definition_meets hs (hs.fine name c hc)) ?_
  rintro built s₁ ⟨⟨hgrows₁, hs₁⟩, hbuilt⟩
  -- filling up the branches is the last step, for subtypes and for others
  have hlast : ∀ m s₂, s₁.registry.Grows s₂.registry → s₂.registry.Sane lone →
      ((m = (asBase setting name built).model ∧ s₂ = s₁) ∨
        ∃ subtype, setting.polymorphism.isSubtype (Reference.toDefinition name) = true ∧
          (expandSubtype setting (asBase setting name built).model c subtype).Gives s₁ m s₂) →
      (inlineBranches setting m.parentBranch { asBase setting name built with model := m } 0
        m.allOf).Meets s₂ (Fails lone) fun _ _ => True := by
    intro m s₂ hgrows₂ hs₂ hexpand
    have hstored : ∀ n, s.registry.Named n →
        ∃ d, s.registry.get? n = some d ∧ d.Known s.registry.Named unasked := fun n hn => by
      obtain ⟨d, hd⟩ := Option.isSome_iff_exists.mp hn.2
      exact ⟨d, hd, hall n d hd⟩
    obtain ⟨hgrows, hlinked⟩ := expanded_linked hc (hall name c hc) hstored hbuilt hexpand
    refine inlineBranches_meets hs₂ (fun n hn => ?_) (fun i => by rw [Nat.zero_add]) hlinked
    obtain ⟨d, hd, hbelow⟩ := hstored n hn
    exact ⟨hn.1, d, hgrows.keeps n d hd, hbelow⟩
  dsimp only
  split
  · rename_i subtype hsub
    have hfine := (hs.fine name c hc).mono hgrows₁
    refine meets_bind (expandSubtype_meets hs₁ hfine) ?_
    rintro m s₂ ⟨⟨hgrows₂, hs₂⟩, hexpand⟩
    refine hlast m s₂ hgrows₂ hs₂ (Or.inr ⟨subtype, ?_, hexpand⟩)
    rw [Polymorphism.isSubtype, Assoc.has, hsub]
    rfl
  · exact hlast _ s₁ (.refl _) hs₁ (Or.inl ⟨rfl, rfl⟩)

/-- **The file of a definition is made, or fails as expected.** -/
theorem file_meets (hs : s.registry.Sane lone) (hc : s.registry.get? name = some c) :
    (file setting name).Meets s (Fails lone) fun _ _ => True := by
  unfold file
  refine meets_bind (fileFrame_meets hs hc) fun f s₁ _ => ?_
  refine meets_bind (Q := fun _ _ => True) (meets_registry trivial) fun r s₂ _ => ?_
  exact meets_bind (Q := fun _ _ => True) (meets_warnAll trivial) fun _ _ _ => meets_pure trivial

end Build

end KclModels
