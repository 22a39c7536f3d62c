import KclModels.Proofs.Build.FileCases
import KclModels.Proofs.Build.Linking

/-!
# Linked files

The steps after a definition is built bring in models that were built for other frames. Those that
come in as properties of a branch bring their dependencies and the models taken out with them. The
full model of a base that is put in place of a branch does not: it is built once more, and of what
was taken out on the way nothing is kept. So the invariant of a file tells these branches from the
others: below them references are still to definitions that have the type, but nothing more is
known of where those are declared.
-/

namespace KclModels

open Build

variable {tr : Text.Transliteration}

theorem Registry.Leads.known {r : Registry} {reference : String} {c : Schema}
    {known : String → Prop} {bare : String → Option Bool} (h : r.Leads reference c)
    (hstored : ∀ n, known n → ∃ d, r.get? n = some d ∧ d.Known known bare)
    (hstart : ∀ n, Reference.name? reference = some n → known n) : c.Known known bare := by
  induction h with
  | stop hn hc _ =>
    obtain ⟨d, hd, hknown⟩ := hstored _ (hstart _ hn)
    obtain rfl := Option.some.inj (hc.symm.trans hd)
    exact hknown
  | next hn hc hnext _ ih =>
    obtain ⟨d, hd, hknown⟩ := hstored _ (hstart _ hn)
    obtain rfl := Option.some.inj (hc.symm.trans hd)
    refine ih fun m hm => hknown.here.1 m ?_
    rw [Schema.referenceName, hnext]
    exact hm

namespace Model

/-- The model has the type of one that was built of what `n` leads to, as if that had the name. -/
def TypedAs (r : Registry) (n : String) (m : Model) : Prop :=
  ∃ (_ : Text.Transliteration) (setting : Setting) (container : String) (c : Schema) (f : Frame)
    (s s' : Session), s.registry.Leads (Reference.toDefinition n) c ∧
    (definition setting n c container).Gives s f s' ∧ s'.registry.Grows r ∧ m.type = f.model.type

/--
A model that stands for a branch in full. What is below it is linked, but to names that may not be
accounted for.
-/
structure Grafted (known : String → Prop) (names : List String) (noted : Prop)
    (bare : String → Option Bool) (r : Registry) (m : Model) : Prop where
  reference : ∃ n, m.reference = some n ∧ known n ∧ (noted → n ∈ names) ∧ m.TypedAs r n
  parts : ∃ names', ∀ p ∈ m.parts, p.Everywhere (Linked names' bare r)

/-- A branch is linked, unless it is one of those that a base is put in place of. -/
def BranchLinked (known : String → Prop) (names : List String) (grafted noted : Prop)
    (bare : String → Option Bool) (r : Registry) (b : Model) : Prop :=
  b.Everywhere (Linked names bare r) ∨ (grafted ∧ b.Grafted known names noted bare r)

variable {known : String → Prop} {names names' : List String} {grafted noted : Prop}
variable {bare : String → Option Bool} {r r' : Registry} {b : Model}

theorem TypedAs.mono {n : String} (h : b.TypedAs r n) (hr : r.Grows r') : b.TypedAs r' n := by
  obtain ⟨tr, setting, container, c, f, s, s', hc, hf, hs, htype⟩ := h
  exact ⟨tr, setting, container, c, f, s, s', hc, hf, hs.trans hr, htype⟩

theorem BranchLinked.mono (h : b.BranchLinked known names grafted noted bare r)
    (hn : ∀ n ∈ names, n ∈ names') (hr : r.Grows r') :
    b.BranchLinked known names' grafted noted bare r' := by
  rcases h with h | ⟨hg, ⟨n, href, hk, hnoted, htyped⟩, ⟨below, hparts⟩⟩
  · exact Or.inl (h.mono fun _ hq => hq.mono hn hr)
  · refine Or.inr ⟨hg, ⟨n, href, hk, fun h => hn n (hnoted h), htyped.mono hr⟩, below,
      fun p hp => ?_⟩
    exact (hparts p hp).mono fun _ hq => hq.mono (fun _ h => h) hr

theorem mem_parts_of_properties {properties : List Model} {p : Model}
    (hp : p ∈ ({ b with properties } : Model).parts) : p ∈ b.parts ∨ p ∈ properties := by
  rw [mem_parts_iff] at hp ⊢
  rcases hp with hp | hp | hp | hp | hp
  · exact Or.inl (Or.inl hp)
  · exact Or.inl (Or.inr (Or.inl hp))
  · exact Or.inr hp
  · exact Or.inl (Or.inr (Or.inr (Or.inr (Or.inl hp))))
  · exact Or.inl (Or.inr (Or.inr (Or.inr (Or.inr hp))))

/-- A branch stays linked when its properties are replaced by linked ones. -/
theorem BranchLinked.replace {properties : List Model}
    (h : b.BranchLinked known names grafted noted bare r)
    (hp : ∀ p ∈ properties, p ∈ b.properties ∨ p.Everywhere (Linked names bare r)) :
    BranchLinked known names grafted noted bare r { b with properties } := by
  rcases h with h | ⟨hg, href, below, hparts⟩
  · have here : Linked names bare r { b with properties } := fun n hn =>
      (h.here n hn).imp_right fun hb valued hv => ⟨(hb valued hv).type, (hb valued hv).items,
        (hb valued hv).value⟩
    refine Or.inl (everywhere_of_parts here fun p hm => ?_)
    rcases mem_parts_of_properties hm with hm | hm
    · exact h.part hm
    · exact (hp p hm).elim
        (fun hm => h.part (mem_parts_iff.mpr (Or.inr (Or.inr (Or.inl hm))))) id
  · refine Or.inr ⟨hg, href, below ++ names, fun p hm => ?_⟩
    have hleft : ∀ q ∈ b.parts, q.Everywhere (Linked (below ++ names) bare r) := fun q hq =>
      (hparts q hq).mono fun _ h => h.mono (fun _ hn => List.mem_append_left _ hn) (.refl r)
    rcases mem_parts_of_properties hm with hm | hm
    · exact hleft p hm
    · rcases hp p hm with hm | hm
      · exact hleft p (mem_parts_iff.mpr (Or.inr (Or.inr (Or.inl hm))))
      · exact hm.mono fun _ h => h.mono (fun _ hn => List.mem_append_right _ hn) (.refl r)

theorem mem_keepProperties {ofBases : List String} {fromBase : Bool} {p : Model}
    {properties : List Model} : ∀ {seen : List String},
    p ∈ (keepProperties ofBases fromBase seen properties).1 → p ∈ properties := by
  induction properties with
  | nil => exact fun hp => absurd hp (by simp [keepProperties])
  | cons q rest ih =>
    intro seen hp
    rw [keepProperties] at hp
    split at hp
    · rcases List.mem_cons.mp hp with rfl | hp
      · exact List.mem_cons_self
      · exact List.mem_cons_of_mem _ (ih hp)
    · exact List.mem_cons_of_mem _ (ih hp)

/-- Leaving a property in one branch keeps branches linked. -/
theorem dedupBranches_linked {ofBases : List String} {expands : Nat → Prop}
    {branches : List Model} : ∀ {seen : List String} {index : Nat},
    (∀ (i : Nat) b, branches[i]? = some b →
      b.BranchLinked known names (expands (index + i)) noted bare r) →
    ∀ (i : Nat) b, (dedupBranches ofBases seen branches)[i]? = some b →
      b.BranchLinked known names (expands (index + i)) noted bare r := by
  induction branches with
  | nil => exact fun _ i b hb => absurd hb (by simp [dedupBranches])
  | cons branch rest ih =>
    intro seen index h i b hb
    rw [dedupBranches] at hb
    cases i with
    | zero =>
      obtain rfl := Option.some.inj hb
      exact (h 0 branch rfl).replace fun p hp => Or.inl (mem_keepProperties hp)
    | succ i =>
      rw [show index + (i + 1) = index + 1 + i by omega]
      refine ih (fun j c hc => ?_) i b hb
      rw [show index + 1 + j = index + (j + 1) by omega]
      exact h (j + 1) c hc

end Model

/-! ## Bases in place of branches -/

section Bases

variable {setting : Setting} {known : String → Prop} {names : List String} {noted : Prop}
variable {bare : String → Option Bool} {expands : Nat → Prop} {container : String} {r : Registry}
variable {s s' : Session}

/-- What is built of a definition. -/
theorem definition_built {name : String} {c : Schema} {f : Frame} (hc : c.Known known bare)
    (h : (definition setting name c container).Gives s f s') :
    Frame.Built known bare (Frame.root name c container) s.registry f s'.registry :=
  have hfresh : (Frame.root name c container).Fresh := ⟨rfl, rfl, rfl⟩
  Frame.build_built (hfresh.linked hc) hfresh.open h

theorem definition_noted {name : String} {c : Schema} {f : Frame} (hc : c.Known known bare)
    (h : (definition setting name c container).Gives s f s') :
    Frame.Noted (Frame.root name c container) f :=
  have hfresh : (Frame.root name c container).Fresh := ⟨rfl, rfl, rfl⟩
  Frame.build_noted (hfresh.linked hc) hfresh.open h

/-- The full model of a base has the parts that were built, marked as those of a base. -/
theorem expanded_like {reference name : String} {built p : Model}
    (hp : p ∈ (expanded setting reference name built).parts) :
    ∃ q ∈ built.parts, Model.Like q p := by
  -- each place for parts of the base has the part from that place, which is only marked
  have hbase : ∀ m : Model, m.parts = built.parts → p ∈ (m.asBaseBranch name).parts →
      ∃ q ∈ built.parts, Model.Like q p := by
    intro m hm hp
    rw [← hm]
    rw [Model.mem_parts_iff] at hp
    rcases hp with hp | hp | hp | hp | hp
    · exact ⟨p, Model.mem_parts_iff.mpr (Or.inl hp), rfl, rfl, rfl, rfl, rfl⟩
    · obtain ⟨q, hq, rfl⟩ := Option.map_eq_some_iff.mp hp
      exact ⟨q, Model.mem_parts_iff.mpr (Or.inr (Or.inl hq)), rfl, rfl, rfl, rfl, rfl⟩
    · obtain ⟨q, hq, rfl⟩ := List.mem_map.mp hp
      exact ⟨q, Model.mem_parts_iff.mpr (Or.inr (Or.inr (Or.inl hq))), rfl, rfl, rfl, rfl,
        rfl⟩
    · exact ⟨p, Model.mem_parts_iff.mpr (Or.inr (Or.inr (Or.inr (Or.inl hp)))), rfl, rfl, rfl,
        rfl, rfl⟩
    · obtain ⟨q, hq, rfl⟩ := Option.map_eq_some_iff.mp hp
      exact ⟨q, Model.mem_parts_iff.mpr (Or.inr (Or.inr (Or.inr (Or.inr hq)))), rfl, rfl, rfl,
        rfl, rfl⟩
  unfold expanded at hp
  split at hp
  · exact hbase _ rfl hp
  · exact hbase _ rfl hp

theorem expanded_parts {reference name : String} {built : Model}
    (h : ∀ p ∈ built.parts, p.Everywhere (Model.Linked names bare r)) :
    ∀ p ∈ (expanded setting reference name built).parts,
      p.Everywhere (Model.Linked names bare r) := by
  intro p hp
  obtain ⟨q, hq, hlike⟩ := expanded_like hp
  exact hlike.everywhere (h q hq)

/-- What is known of a branch of the schema whose bases are put in place. -/
structure Expandable (known : String → Prop) (names : List String) (grafted noted : Prop)
    (bare : String → Option Bool) (r : Registry) (c : Schema) : Prop where
  schema : c.Known known bare
  noted : noted → ∀ n, c.referenceName = some n → n ∈ names
  grafted : ∀ reference d, c.reference = some reference → r.Leads reference d →
    d.discriminator.isSome = true → grafted

theorem expandBranches_linked {branches : List Schema}
    (hstored : ∀ n, known n → ∃ d, r.get? n = some d ∧ d.Known known bare) :
    ∀ {index : Nat} {allOf : List Model} {s s' : Session} {result : List Model × List String},
    r.Grows s.registry →
    (∀ (i : Nat) c, branches[i]? = some c →
      Expandable known names (expands (index + i)) noted bare r c) →
    (∀ (i : Nat) b, allOf[i]? = some b →
      b.BranchLinked known names (expands i) noted bare s.registry) →
    (expandBranches setting container index allOf branches).Gives s result s' →
    s.registry.Grows s'.registry ∧ ∀ (i : Nat) b, result.1[i]? = some b →
      b.BranchLinked known names (expands i) noted bare s'.registry := by
  induction branches with
  | nil =>
    intro index allOf s s' result _ _ hall h
    simp only [expandBranches, gives_pure] at h
    obtain ⟨rfl, rfl⟩ := h
    exact ⟨.refl _, hall⟩
  | cons branch rest ih =>
    intro index allOf s s' result hr hc hall h
    have hrest : ∀ (i : Nat) c, rest[i]? = some c →
        Expandable known names (expands (index + 1 + i)) noted bare r c := by
      intro i c hi
      rw [show index + 1 + i = index + (i + 1) by omega]
      exact hc (i + 1) c hi
    rcases expandBranches_cons_cases h with ⟨-, h⟩ | ⟨reference, name, target, built, s₁, names',
      href, hname, htarget, hdisc, hbuilt, h, -⟩
    · exact ih hr hrest hall h
    · have hbranch := hc 0 branch rfl
      have hrefName : branch.referenceName = some name :=
        Schema.referenceName_eq href hname
      have hkn : known name := hbranch.schema.here.1 name hrefName
      -- the chain behind a base does not leave the definitions
      have hclosed : ∀ n, known n →
          ∃ d, r.get? n = some d ∧ ∀ m, d.referenceName = some m → known m := fun n hn =>
        (hstored n hn).imp fun _ hd => hd.imp_right fun hbelow => hbelow.here.1
      have hstart : ∀ n, Reference.name? reference = some n → known n := fun n hn =>
        Option.some.inj (hname.symm.trans hn) ▸ hkn
      have hleads : r.Leads reference target :=
        (Registry.resolve_leads htarget).back hr hclosed hstart
      have htk : target.Known known bare := hleads.known hstored hstart
      have hb := definition_built htk hbuilt
      have hgraft : Model.BranchLinked known names (expands index) noted bare s₁.registry
          (expanded setting reference name built.model) := by
        have htyped : (expanded setting reference name built.model).TypedAs s₁.registry name := by
          refine ⟨_, setting, container, target, built, s, s₁, ?_, hbuilt, .refl _, ?_⟩
          · rw [← Reference.eq_toDefinition hname]
            exact Registry.resolve_leads htarget
          · unfold expanded
            split <;> rfl
        refine Or.inr ⟨hbranch.grafted reference target href hleads hdisc, ⟨name, ?_, hkn,
          fun hn => hbranch.noted hn name hrefName, htyped⟩, _, expanded_parts hb.linked.parts⟩
        unfold expanded
        split <;> rfl
      have hset : ∀ (i : Nat) b,
          (allOf.set index (expanded setting reference name built.model))[i]? = some b →
          b.BranchLinked known names (expands i) noted bare s₁.registry := by
        intro i b hi
        rw [List.getElem?_set] at hi
        split at hi
        · rename_i heq
          subst heq
          split at hi
          · rw [← Option.some.inj hi]
            exact hgraft
          · simp at hi
        · exact (hall i b hi).mono (fun _ hn => hn) hb.grows
      obtain ⟨hgrows, hresult⟩ := ih (hr.trans hb.grows) hrest hset h
      exact ⟨hb.grows.trans hgrows, hresult⟩

end Bases

/-! ## Files -/

/-- The invariant of a frame that has everything its file needs. -/
structure FileLinked (known : String → Prop) (expands : Nat → Prop) (noted : Prop)
    (bare : String → Option Bool) (name : String) (r : Registry) (f : Frame) : Prop where
  title : f.model.name = name
  dependencies : ∀ n ∈ f.dependencies, f.Knows known n
  reference : ∀ n, f.model.reference = some n → n ∈ f.dependencies
  own : ∀ p ∈ ({ f.model with allOf := [] } : Model).parts,
    p.Everywhere (Model.Linked f.dependencies bare r)
  branches : ∀ (i : Nat) b, f.model.allOf[i]? = some b →
    b.BranchLinked known f.dependencies (expands i) noted bare r
  extras : ∀ n m, (n, m) ∈ f.extras → m.TakenOut (f.Knows known) f.dependencies bare r n
  sorted : Assoc.Sorted f.extras

/-- The later frame takes out all that was made since, and still what was taken out before. -/
structure Collects (f : Frame) (r : Registry) (f' : Frame) (r' : Registry) : Prop where
  extras : ∀ n ∈ Assoc.keys f.extras, n ∈ Assoc.keys f'.extras
  made : ∀ n c, r'.get? n = some c → r.get? n = some c ∨ n ∈ Assoc.keys f'.extras

theorem Collects.trans {f f' f'' : Frame} {r r' r'' : Registry} (h : Collects f r f' r')
    (h' : Collects f' r' f'' r'') : Collects f r f'' r'' where
  extras n hn := h'.extras n (h.extras n hn)
  made n c hc := by
    rcases h'.made n c hc with hc | hn
    · exact (h.made n c hc).imp_right (h'.extras n)
    · exact Or.inr hn

section Files

variable {setting : Setting} {known : String → Prop} {noted : Prop} {expands : Nat → Prop}
variable {bare : String → Option Bool}
variable {r : Registry} {s s' : Session} {f f' : Frame} {name : String}

theorem mem_parts_of_own {m p : Model} (hp : p ∈ ({ m with allOf := [] } : Model).parts) :
    p ∈ m.parts := by
  rw [Model.mem_parts_iff] at hp ⊢
  exact hp.imp_right (Or.imp_right (Or.imp_right (Or.imp_left fun hp =>
    absurd hp List.not_mem_nil)))

/-- Every name that a file knows is stored with a schema that refers to such names. -/
theorem FileLinked.stored (h : FileLinked known expands noted bare name r f)
    (hstored : ∀ n, known n → ∃ d, r.get? n = some d ∧ d.Known known bare) :
    ∀ n, f.Knows known n → ∃ d, r.get? n = some d ∧ d.Known (f.Knows known) bare := by
  rintro n (hn | hn)
  · obtain ⟨d, hd, hknown⟩ := hstored n hn
    exact ⟨d, hd, hknown.mono fun _ => Or.inl⟩
  · obtain ⟨⟨n', m⟩, hm, rfl⟩ := List.mem_map.mp hn
    exact (h.extras n' m hm).stored

/-- **Declaring the properties of a branch keeps a file linked**: all that they need comes along. -/
theorem FileLinked.inline (h : FileLinked known expands noted bare name r f) {g₀ built : Frame}
    {r' : Registry} {index : Nat} {branch : Model}
    (hb : Frame.Built (f.Knows known) bare g₀ r built r')
    (hbranch : f.model.allOf[index]? = some branch) :
    FileLinked known expands noted bare name r' (inlined f index branch built) := by
  -- what the file knew and what was built below it both come along
  have hleft : ∀ n ∈ f.dependencies, n ∈ (inlined f index branch built).dependencies :=
    fun n hn => List.mem_append_left built.dependencies hn
  have hright : ∀ n ∈ built.dependencies, n ∈ (inlined f index branch built).dependencies :=
    fun n hn => List.mem_append_right f.dependencies hn
  have hown : ∀ n, f.Knows known n → (inlined f index branch built).Knows known n := fun n hn =>
    hn.imp_right fun hx => Assoc.mem_keys_mergeSorted.mpr (Or.inl hx)
  have hbelow : ∀ n, built.Knows (f.Knows known) n → (inlined f index branch built).Knows known n :=
    fun n hn => hn.elim (hown n) fun hx => Or.inr (Assoc.mem_keys_mergeSorted.mpr (Or.inr hx))
  have hparts : ∀ p ∈ built.model.parts,
      p.Everywhere (Model.Linked (inlined f index branch built).dependencies bare r') :=
    fun p hp => (hb.linked.parts p hp).mono fun _ hq => hq.mono hright (.refl r')
  refine ⟨h.title, ?_, fun n hn => hleft n (h.reference n hn), fun p hp => ?_, fun i b hi => ?_, ?_,
    h.sorted.mergeSorted⟩
  · intro n hn
    rcases List.mem_append.mp hn with hn | hn
    · exact hown n (h.dependencies n hn)
    · exact hbelow n (hb.linked.dependencies n hn)
  · exact (h.own p hp).mono fun _ hq => hq.mono hleft hb.grows
  · change (f.model.allOf.set index _)[i]? = some b at hi
    rw [List.getElem?_set] at hi
    split at hi
    · rename_i heq
      subst heq
      split at hi
      · rw [← Option.some.inj hi]
        -- the branch has new properties: what was built, and what that has in its branches
        refine ((h.branches index branch hbranch).mono hleft hb.grows).replace fun p hp => Or.inr ?_
        rcases List.mem_append.mp hp with hp | hp
        · exact hparts p (Model.mem_parts_iff.mpr (Or.inr (Or.inr (Or.inl hp))))
        · obtain ⟨q, hq, hp⟩ := List.mem_flatMap.mp hp
          have hq' := hparts q (Model.mem_parts_iff.mpr (Or.inr (Or.inr (Or.inr (Or.inl hq)))))
          exact hq'.part (Model.mem_parts_iff.mpr (Or.inr (Or.inr (Or.inl hp))))
      · simp at hi
    · exact (h.branches i b hi).mono hleft hb.grows
  · intro n m hm
    rcases Assoc.mem_mergeSorted hm with hm | hm
    · exact (h.extras n m hm).mono hown hleft hb.grows
    · exact (hb.linked.extras n m hm).mono hbelow hright (.refl r')

theorem FileLinked.knows_branch (h : FileLinked known expands noted bare name r f) {index : Nat}
    {branch : Model} {n : String} (hbranch : f.model.allOf[index]? = some branch)
    (href : branch.reference = some n) : f.Knows known n := by
  rcases h.branches index branch hbranch with hlinked | ⟨-, ⟨m, hm, hk, -, -⟩, -⟩
  · exact h.dependencies n (hlinked.here n href).1
  · obtain rfl := Option.some.inj (href.symm.trans hm)
    exact Or.inl hk

/-- What is built of the definition that a branch refers to. -/
theorem FileLinked.branch_built (h : FileLinked known expands noted bare name s.registry f)
    {index : Nat} {branch : Model} {n : String} {target : Schema} {built : Frame}
    (hstored : ∀ n, known n → ∃ d, s.registry.get? n = some d ∧ d.Known known bare)
    (hbranch : f.model.allOf[index]? = some branch) (href : branch.reference = some n)
    (ht : s.registry.resolve (Reference.toDefinition n) = .ok target)
    (hb : (definition setting n target f.model.name).Gives s built s') :
    Frame.Built (f.Knows known) bare (Frame.root n target f.model.name) s.registry built
      s'.registry := by
  refine definition_built ((Registry.resolve_leads ht).known (h.stored hstored) fun m hm => ?_) hb
  rw [Reference.eq_of_name?_toDefinition hm]
  exact h.knows_branch hbranch href

theorem inlineBranches_linked {parent : Option Nat} {branches : List Model} :
    ∀ {index : Nat} {f : Frame} {s : Session},
    (∀ n, known n → ∃ d, s.registry.get? n = some d ∧ d.Known known bare) →
    (∀ i : Nat, branches[i]? = f.model.allOf[index + i]?) →
    FileLinked known expands noted bare name s.registry f →
    (inlineBranches setting parent f index branches).Gives s f' s' →
    s.registry.Grows s'.registry ∧
      FileLinked known expands noted bare name s'.registry f' ∧
      Collects f s.registry f' s'.registry := by
  induction branches with
  | nil =>
    intro index f s _ _ hf h
    simp only [inlineBranches, gives_pure] at h
    obtain ⟨rfl, rfl⟩ := h
    exact ⟨.refl _, hf, fun _ hn => hn, fun _ _ hc => Or.inl hc⟩
  | cons branch rest ih =>
    intro index f s hstored hsame hf h
    have hrest : ∀ i : Nat, rest[i]? = f.model.allOf[index + 1 + i]? := by
      intro i
      rw [show index + 1 + i = index + (i + 1) by omega, ← hsame (i + 1)]
      rfl
    have hbranch : f.model.allOf[index]? = some branch := (hsame 0).symm
    rcases inlineBranches_cons_cases h with ⟨-, h⟩ | ⟨n, target, built, s₁, -, hn, ht, hb, h⟩
    · exact ih hstored hrest hf h
    · have hbuilt := hf.branch_built hstored hbranch hn ht hb
      have hnext := hf.inline hbuilt hbranch
      have hstored₁ : ∀ n, known n → ∃ d, s₁.registry.get? n = some d ∧ d.Known known bare := by
        intro n hn
        obtain ⟨d, hd, hknown⟩ := hstored n hn
        exact ⟨d, hbuilt.grows.keeps n d hd, hknown⟩
      have hsame₁ : ∀ i : Nat,
          rest[i]? = (inlined f index branch built).model.allOf[index + 1 + i]? := by
        intro i
        rw [hrest i]
        exact (List.getElem?_set_ne (by omega)).symm
      -- the file takes all that building the branch took out
      have hcollects : Collects f s.registry (inlined f index branch built) s₁.registry := by
        refine ⟨fun n hn => Assoc.mem_keys_mergeSorted.mpr (Or.inl hn), fun n c hc => ?_⟩
        exact (hbuilt.made n c hc).imp_right fun hx => Assoc.mem_keys_mergeSorted.mpr (Or.inr hx)
      obtain ⟨hgrows, hlinked, hrest⟩ := ih hstored₁ hsame₁ hnext h
      exact ⟨hbuilt.grows.trans hgrows, hlinked, hcollects.trans hrest⟩

/-- The branches of a definition that a base is put in place of, if it is a subtype. -/
def Registry.Expands (r : Registry) (p : Polymorphism) (name : String) (i : Nat) : Prop :=
  p.isSubtype (Reference.toDefinition name) = true ∧
    ∃ c branch reference base, r.get? name = some c ∧ c.allOf[i]? = some branch ∧
      branch.reference = some reference ∧ r.Leads reference base ∧
      base.discriminator.isSome = true

/-- A definition that may be a base differs from what was built in facts of its model. -/
theorem asBase_facts (setting : Setting) (name : String) (f : Frame) :
    ∃ m : Model, asBase setting name f = { f with model := m } ∧ m.name = f.model.name ∧
      m.reference = f.model.reference ∧ m.items = f.model.items ∧
      m.additionalItems = f.model.additionalItems ∧ m.properties = f.model.properties ∧
      m.allOf = f.model.allOf ∧ m.additionalProperties = f.model.additionalProperties := by
  unfold asBase
  split
  · exact ⟨_, rfl, rfl, rfl, rfl, rfl, rfl, rfl, rfl⟩
  · exact ⟨f.model, rfl, rfl, rfl, rfl, rfl, rfl, rfl, rfl⟩

theorem asBase_type (setting : Setting) (name : String) (f : Frame) :
    (asBase setting name f).model.type = f.model.type := by
  unfold asBase
  split <;> rfl

/-- A file stays linked when its model gets other branches that are linked. -/
theorem FileLinked.remodel (h : FileLinked known expands noted bare name r f) {r' : Registry}
    (hr : r.Grows r') {m : Model} (hname : m.name = f.model.name)
    (href : m.reference = f.model.reference) (hi : m.items = f.model.items)
    (hx : m.additionalItems = f.model.additionalItems) (hp : m.properties = f.model.properties)
    (hv : m.additionalProperties = f.model.additionalProperties)
    (hb : ∀ (i : Nat) b, m.allOf[i]? = some b →
      b.BranchLinked known f.dependencies (expands i) noted bare r') :
    FileLinked known expands noted bare name r' { f with model := m } where
  title := hname.trans h.title
  dependencies := h.dependencies
  reference n hn := h.reference n (href ▸ hn)
  own p hm := by
    refine (h.own p ?_).mono fun _ hq => hq.mono (fun _ hn => hn) hr
    rw [Model.mem_parts_iff] at hm ⊢
    rw [← hi, ← hx, ← hp, ← hv]
    exact hm
  branches := hb
  extras n m hm := (h.extras n m hm).mono (fun _ hn => hn) (fun _ hn => hn) hr
  sorted := h.sorted

/-- What was built of a definition is linked as a file, with no base put in place yet. -/
theorem fileLinked_of_built {g₀ : Frame} (hb : Frame.Built known bare g₀ r f s.registry) :
    FileLinked known expands noted bare g₀.name s.registry f where
  title := hb.titled.1.trans hb.carries.name
  dependencies := hb.linked.dependencies
  reference n hn := (hb.linked.reference n hn).1
  own p hp := hb.linked.parts p (mem_parts_of_own hp)
  branches _ b hi := Or.inl (hb.linked.parts b (Model.mem_parts_iff.mpr
    (Or.inr (Or.inr (Or.inr (Or.inl (List.mem_of_getElem? hi)))))))
  extras := hb.linked.extras
  sorted := hb.linked.sorted

/-- **A definition is linked as a file once bases are put in place of its branches.** -/
theorem expanded_linked {c : Schema} {built : Frame} {m : Model} {s₁ s₂ : Session}
    (hc : s.registry.get? name = some c) (hknown : c.Known known bare)
    (hstored : ∀ n, known n → ∃ d, s.registry.get? n = some d ∧ d.Known known bare)
    (hbuilt : (definition setting name c name).Gives s built s₁)
    (hexpand : (m = (asBase setting name built).model ∧ s₂ = s₁) ∨
      ∃ subtype, setting.polymorphism.isSubtype (Reference.toDefinition name) = true ∧
        (expandSubtype setting (asBase setting name built).model c subtype).Gives s₁ m s₂) :
    s.registry.Grows s₂.registry ∧
      FileLinked known (s.registry.Expands setting.polymorphism name) (c.reference = none) bare name
        s₂.registry { asBase setting name built with model := m } := by
  have hb := definition_built hknown hbuilt
  have hnoted := definition_noted hknown hbuilt
  obtain ⟨m₀, hbase, hname, href, hitems, hextra, hprops, hallOf, hvalue⟩ :=
    asBase_facts setting name built
  rw [hbase] at hexpand ⊢
  have hbuilt₀ : FileLinked known (s.registry.Expands setting.polymorphism name)
      (c.reference = none) bare name s₁.registry built := fileLinked_of_built hb
  rcases hexpand with ⟨rfl, rfl⟩ | ⟨subtype, hsub, he⟩
  · exact ⟨hb.grows, hbuilt₀.remodel (.refl _) hname href hitems hextra hprops hvalue
      (hallOf ▸ hbuilt₀.branches)⟩
  · obtain ⟨allOf, names, hex, rfl⟩ := expandSubtype_cases he
    -- a branch may be filled by what it refers to as it is one of a subtype
    have hexpandable : ∀ (i : Nat) branch, c.allOf[i]? = some branch →
        Expandable known built.dependencies (s.registry.Expands setting.polymorphism name (0 + i))
          (c.reference = none) bare s.registry branch := by
      intro i branch hi
      have hmem : branch ∈ c.allOf := List.mem_of_getElem? hi
      refine ⟨hknown.child (Schema.branch_mem_children hmem),
        fun hnone n hn => hnoted.branches hnone branch hmem n hn, fun reference base hr hl hd => ?_⟩
      rw [Nat.zero_add]
      exact ⟨hsub, c, branch, reference, base, hc, hi, hr, hl, hd⟩
    have hbranches : ∀ (i : Nat) b, m₀.allOf[i]? = some b →
        b.BranchLinked known built.dependencies (s.registry.Expands setting.polymorphism name i)
          (c.reference = none) bare s₁.registry := hallOf ▸ hbuilt₀.branches
    obtain ⟨hgrows, hresult⟩ :=
      expandBranches_linked hstored hb.grows hexpandable hbranches hex
    refine ⟨hb.grows.trans hgrows,
      hbuilt₀.remodel hgrows hname href hitems hextra hprops hvalue ?_⟩
    intro i b hi
    rw [← Nat.zero_add i]
    exact Model.dedupBranches_linked (fun i b hi => (Nat.zero_add i).symm ▸ hresult i b hi) i b hi

/-- **The frame that a file is made of is linked**, to what the definition leads to. -/
theorem fileFrame_linked {c : Schema} (hc : s.registry.get? name = some c)
    (hknown : c.Known known bare)
    (hstored : ∀ n, known n → ∃ d, s.registry.get? n = some d ∧ d.Known known bare)
    (h : (fileFrame setting name).Gives s f s') :
    s.registry.Grows s'.registry ∧
      FileLinked known (s.registry.Expands setting.polymorphism name) (c.reference = none) bare name
        s'.registry f ∧
      (setting.polymorphism.isSubtype (Reference.toDefinition name) = false →
        ∀ n d, s'.registry.get? n = some d →
          s.registry.get? n = some d ∨ n ∈ Assoc.keys f.extras) := by
  obtain ⟨d, built, s₁, s₂, m, hd, hbuilt, hexpand, h⟩ := fileFrame_cases h
  obtain rfl := Option.some.inj (hc.symm.trans hd)
  obtain ⟨hgrows, hlinked⟩ := expanded_linked hc hknown hstored hbuilt (hexpand.imp_left And.right)
  have hstored' : ∀ n, known n → ∃ d, s₂.registry.get? n = some d ∧ d.Known known bare := by
    intro n hn
    obtain ⟨d, hd, hbelow⟩ := hstored n hn
    exact ⟨d, hgrows.keeps n d hd, hbelow⟩
  obtain ⟨hrest, hresult, hcollects⟩ :=
    inlineBranches_linked hstored' (fun i => by rw [Nat.zero_add]) hlinked h
  refine ⟨hgrows.trans hrest, hresult, fun hnot n d hd => ?_⟩
  -- without bases put in place nothing is made between the build and the branches
  rcases hexpand with ⟨-, -, rfl⟩ | ⟨subtype, hsub, -⟩
  · have hextras : ({ asBase setting name built with model := m } : Frame).extras =
        built.extras := by
      obtain ⟨m₀, hbase, -⟩ := asBase_facts setting name built
      rw [hbase]
    rcases hcollects.made n d hd with hd | hn
    · refine ((definition_built hknown hbuilt).made n d hd).imp_right fun hx => ?_
      exact hcollects.extras n (hextras ▸ hx)
    · exact Or.inr hn
  · rw [hnot] at hsub
    exact absurd hsub (by simp)

end Files

end KclModels
