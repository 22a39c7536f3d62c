import KclModels.Proofs.Build.Flattening
import KclModels.Proofs.Build.Origins

/-!
# Models that the document determines

What a definition declares and inherits from is often settled by the document alone, whatever was
built before and wherever the definition was made. It is if each branch of its composition declares
its properties and nothing more, or is a reference; but of several references to objects only one is
inherited from, and what becomes of the others depends on the file. So two models of the same schema
agree if there is at most one of these.
-/

namespace KclModels

open Build KclModels.Frame

variable {tr : Text.Transliteration}
variable {setting : Setting} {defs : Definitions} {r r' : Registry} {s s' : Session} {f : Frame}
variable {b c d : Schema} {m m' : Model} {x name : String}

/-- What a model inherits from. -/
def Model.inherits? (m : Model) : Option String :=
  m.parentBranch.bind fun i => (m.allOf[i]?).bind (·.reference)

/-- A composition of which the document says what is declared and what is inherited from. -/
structure Definitions.Settles (defs : Definitions) (c : Schema) : Prop where
  own : c.Composed
  /-- A branch that is no reference has no more than properties. -/
  inline : ∀ b ∈ c.allOf, b.reference = none → b.allOf = [] ∧ b.extraValue? = none
  /-- At most one branch refers to an object that declares something. -/
  sole : ∀ (i j : Nat) (b b' d d' : Schema), c.allOf[i]? = some b → c.allOf[j]? = some b' →
    b.reference.isSome = true → b'.reference.isSome = true → defs.Ends b d → defs.Ends b' d' →
    d.isRecord = true → d'.isRecord = true → i = j

/-! ## Branches -/

/-- The model of a branch is as the document says. -/
inductive Pictures (defs : Definitions) (b : Schema) (m : Model) : Prop
  | own : b.reference = none → m.reference = none →
      (names m.properties).Perm (Assoc.keys b.properties) → Pictures defs b m
  | refers {n : String} {d : Schema} : b.reference.isSome = true → b.referenceName = some n →
      m.reference = some n → defs.Ends b d → m.type.complex = d.isRecord → m.properties = [] →
      Pictures defs b m

theorem Frame.Outcome.pictures (h : Outcome r b m) (hr : r.Holds defs)
    (hknown : ∀ n, b.referenceName = some n → (defs.lookup n).isSome = true)
    (hinline : b.reference = none → b.allOf = [] ∧ b.extraValue? = none) : Pictures defs b m := by
  cases h with
  | declares href _ hm hnames _ _ => exact .own href hm hnames
  | @refers n hsol hn hl =>
    obtain ⟨reference, href, hname⟩ := Option.bind_eq_some_iff.mp hn
    obtain ⟨d, hd, hcomplex⟩ := hl.kind
    rw [← Reference.eq_toDefinition hname] at hd
    exact .refers hsol.reference hn hl.reference (hr.ends hd href hknown) hcomplex hl.properties
  | apart href hwhy _ =>
    obtain ⟨hall, hvalue⟩ := hinline href
    exact absurd hwhy (by simp [hall, hvalue])

theorem Pictures.of_reference (h : Pictures defs b m) (hm : m.isReferenced = true) :
    b.reference.isSome = true ∧ ∃ d, defs.Ends b d ∧ d.isRecord = true := by
  rw [Model.isReferenced, Bool.and_eq_true] at hm
  cases h with
  | own _ hnone _ => exact absurd hm.1 (by simp [hnone])
  | refers hsome _ _ hd hcomplex _ => exact ⟨hsome, _, hd, hcomplex ▸ hm.2⟩

/-- **Two models of a branch agree** in what they refer to and in what they declare. -/
theorem Pictures.agree (h : Pictures defs b m) (h' : Pictures defs b m') :
    m.reference = m'.reference ∧ m.isReferenced = m'.isReferenced ∧
      ∀ x, x ∈ names m.properties ↔ x ∈ names m'.properties := by
  cases h with
  | own href hm hnames =>
    cases h' with
    | own _ hm' hnames' =>
      refine ⟨hm.trans hm'.symm, by rw [Model.isReferenced, Model.isReferenced, hm, hm']; rfl, ?_⟩
      exact fun x => hnames.mem_iff.trans hnames'.mem_iff.symm
    | refers hsome => exact absurd hsome (by simp [href])
  | refers hsome hn hm hd hcomplex hnil =>
    cases h' with
    | own href => exact absurd hsome (by simp [href])
    | refers _ hn' hm' hd' hcomplex' hnil' =>
      obtain rfl := Option.some.inj (hn.symm.trans hn')
      obtain rfl := hd.unique hd'
      refine ⟨hm.trans hm'.symm, ?_, fun x => by rw [hnil, hnil']⟩
      rw [Model.isReferenced, Model.isReferenced, hm, hm', hcomplex, hcomplex']

/-! ## Definitions -/

/-- The model of a definition is as the document says. -/
structure Depicts (defs : Definitions) (c : Schema) (m : Model) : Prop where
  properties : (names m.properties).Perm (Assoc.keys c.properties)
  branches : List.Forall₂ (Pictures defs) c.allOf m.allOf

theorem Frame.Outline.depicts (h : Outline r c m) (hr : r.Holds defs) (hc : defs.Settles c)
    (hknown : ∀ b ∈ c.allOf, ∀ n, b.referenceName = some n → (defs.lookup n).isSome = true) :
    Depicts defs c m := by
  refine ⟨h.properties, List.forall₂_iff_get.mpr ⟨h.branches.length_eq, fun i hi hi' => ?_⟩⟩
  have hmem : c.allOf.get ⟨i, hi⟩ ∈ c.allOf := List.get_mem _ _
  exact (List.Forall₂.get h.branches hi hi').pictures hr (hknown _ hmem) (hc.inline _ hmem)

theorem forall₂_map_eq {α β γ : Type} {R : α → β → Prop} {g : β → γ} {l : List α} {l₁ l₂ : List β}
    (h₁ : List.Forall₂ R l l₁) (h₂ : List.Forall₂ R l l₂)
    (hg : ∀ a b b', R a b → R a b' → g b = g b') : l₁.map g = l₂.map g := by
  induction h₁ generalizing l₂ with
  | nil =>
    cases h₂
    rfl
  | cons hab _ ih =>
    cases h₂ with
    | cons hab' h₂ => rw [List.map_cons, List.map_cons, hg _ _ _ hab hab', ih h₂]

/-- At most one branch is a reference to an object. -/
theorem Depicts.sole (h : Depicts defs c m) (hc : defs.Settles c) {i j : Nat} {p q : Model}
    (hp : m.allOf[i]? = some p) (hq : m.allOf[j]? = some q) (hpr : p.isReferenced = true)
    (hqr : q.isReferenced = true) : i = j := by
  have hbranch : ∀ {i : Nat} {p : Model}, m.allOf[i]? = some p →
      ∃ b, c.allOf[i]? = some b ∧ Pictures defs b p := by
    intro i p hp
    have hlt := (List.getElem?_eq_some_iff.mp hp).1
    obtain ⟨b, hb⟩ : ∃ b, c.allOf[i]? = some b :=
      ⟨_, List.getElem?_eq_getElem (h.branches.length_eq ▸ hlt)⟩
    obtain ⟨p', hp', hpic⟩ := forall₂_getElem? h.branches hb
    obtain rfl := Option.some.inj (hp.symm.trans hp')
    exact ⟨_, hb, hpic⟩
  obtain ⟨b, hb, hpic⟩ := hbranch hp
  obtain ⟨b', hb', hpic'⟩ := hbranch hq
  obtain ⟨hsome, d, hd, hrecord⟩ := hpic.of_reference hpr
  obtain ⟨hsome', d', hd', hrecord'⟩ := hpic'.of_reference hqr
  exact hc.sole i j b b' d d' hb hb' hsome hsome' hd hd' hrecord hrecord'

/-- Where one branch at most refers to an object, that is the parent. -/
theorem parentBranch_of_sole (h : ∀ (i j : Nat) (p q : Model), m.allOf[i]? = some p →
    m.allOf[j]? = some q → p.isReferenced = true → q.isReferenced = true → i = j) :
    m.parentBranch = m.allOf.findIdx? Model.isReferenced := by
  rw [Model.parentBranch]
  cases hbase : m.allOf.findIdx? fun b => b.isReferenced && b.isBase with
  | none => rfl
  | some i =>
    obtain ⟨hlt, hi, -⟩ := List.findIdx?_eq_some_iff_getElem.mp hbase
    have href : (m.allOf[i]).isReferenced = true := (Bool.and_eq_true_iff.mp hi).1
    refine (List.findIdx?_eq_some_iff_getElem.mpr ⟨hlt, href, fun j hj hjr => ?_⟩).symm
    have heq := h i j _ _ (List.getElem?_eq_getElem hlt)
      (List.getElem?_eq_getElem (by omega)) href hjr
    omega

theorem parentBranch_eq_of_sole (h : ∀ (i j : Nat) (p q : Model), m.allOf[i]? = some p →
    m.allOf[j]? = some q → p.isReferenced = true → q.isReferenced = true → i = j) {i : Nat}
    {p : Model} (hp : m.allOf[i]? = some p) (href : p.isReferenced = true) :
    m.parentBranch = some i := by
  rw [parentBranch_of_sole h]
  obtain ⟨hlt, rfl⟩ := List.getElem?_eq_some_iff.mp hp
  refine List.findIdx?_eq_some_iff_getElem.mpr ⟨hlt, href, fun j hj hjr => ?_⟩
  have heq := h i j _ _ hp (List.getElem?_eq_getElem (by omega)) href hjr
  omega

/-- **Two models of a schema that the document settles agree** in attributes and inheritance. -/
theorem Depicts.agree (h : Depicts defs c m) (h' : Depicts defs c m') (hc : defs.Settles c) :
    m.inherits? = m'.inherits? ∧
      ∀ x, x ∈ names (Kcl.ownAttributes m m.parentBranch) ↔
        x ∈ names (Kcl.ownAttributes m' m'.parentBranch) := by
  -- the parent is the first branch that refers to an object, and both models agree on those
  have hparent : m.parentBranch = m'.parentBranch := by
    rw [parentBranch_of_sole fun i j p q hp hq => h.sole hc hp hq,
      parentBranch_of_sole fun i j p q hp hq => h'.sole hc hp hq]
    have hmap := congrArg (List.findIdx? id)
      (forall₂_map_eq (g := Model.isReferenced) h.branches h'.branches
        fun _ _ _ hp hp' => (hp.agree hp').2.1)
    rwa [List.findIdx?_map, List.findIdx?_map] at hmap
  have hreferences := forall₂_map_eq (g := fun b : Model => b.reference) h.branches h'.branches
    fun _ _ _ hp hp' => (hp.agree hp').1
  -- what a branch declares in one model, the branch at its place declares in the other
  have hbranches : ∀ {m m' : Model} {x : String} {i : Nat} {p : Model}, Depicts defs c m →
      Depicts defs c m' → m.allOf[i]? = some p → x ∈ names p.properties →
      ∃ p', m'.allOf[i]? = some p' ∧ x ∈ names p'.properties := by
    intro m m' x i p h h' hp hx
    have hlt := (List.getElem?_eq_some_iff.mp hp).1
    obtain ⟨b, hb⟩ : ∃ b, c.allOf[i]? = some b :=
      ⟨_, List.getElem?_eq_getElem (h.branches.length_eq ▸ hlt)⟩
    obtain ⟨p₁, hp₁, hpic⟩ := forall₂_getElem? h.branches hb
    obtain ⟨p', hp', hpic'⟩ := forall₂_getElem? h'.branches hb
    obtain rfl := Option.some.inj (hp.symm.trans hp₁)
    exact ⟨p', hp', ((hpic.agree hpic').2.2 x).mp hx⟩
  refine ⟨?_, fun x => ?_⟩
  · rw [Model.inherits?, Model.inherits?, hparent]
    cases m'.parentBranch with
    | none => rfl
    | some i =>
      have hi := congrArg (fun l : List (Option String) => (l[i]?).bind id) hreferences
      simpa [List.getElem?_map, Option.bind_map, Function.comp_def] using hi
  · rw [names, names, Kcl.mem_names_ownAttributes, Kcl.mem_names_ownAttributes, hparent]
    refine or_congr (h.properties.mem_iff.trans h'.properties.mem_iff.symm) ⟨?_, ?_⟩
    · rintro ⟨i, p, hp, hne, hx⟩
      obtain ⟨p', hp', hx'⟩ := hbranches h h' hp hx
      exact ⟨i, p', hp', hne, hx'⟩
    · rintro ⟨i, p, hp, hne, hx⟩
      obtain ⟨p', hp', hx'⟩ := hbranches h' h hp hx
      exact ⟨i, p', hp', hne, hx'⟩

/-! ## Compositions that give way to a branch -/

/-- Whether a composition gives way to a branch, the document says. -/
theorem Frame.Collapses.of_holds (h : Collapses r c) (hr : r.Holds defs) (hr' : r'.Holds defs)
    (hknown : ∀ b ∈ c.allOf, ∀ n, b.referenceName = some n → (defs.lookup n).isSome = true) :
    Collapses r' c := by
  obtain ⟨hlen, b, reference, d, hfilter, href, hd, hkind⟩ := h
  have hb : b ∈ c.allOf :=
    (List.mem_filter.mp (hfilter ▸ List.mem_singleton_self b : b ∈ c.allOf.filter _)).1
  exact ⟨hlen, b, reference, d, hfilter, href, hr'.leads (hr.ends hd href (hknown b hb)) href, hkind⟩

/-- What a definition comes to: what the document says, or nothing if it gives way to a branch. -/
inductive Amounts (defs : Definitions) (r : Registry) (c : Schema) (m : Model) : Prop
  | depicts : ¬ Collapses r c → Depicts defs c m → Amounts defs r c m
  | nothing : Collapses r c → m.properties = [] → m.allOf = [] → Amounts defs r c m

theorem Amounts.congr (h : Amounts defs r c m) (hproperties : m'.properties = m.properties)
    (hall : m'.allOf = m.allOf) : Amounts defs r c m' := by
  cases h with
  | depicts hno hdepicts =>
    exact .depicts hno ⟨hproperties ▸ hdepicts.properties, hall ▸ hdepicts.branches⟩
  | nothing hcollapses hnil hnil' =>
    exact .nothing hcollapses (hproperties.trans hnil) (hall.trans hnil')

/-- **Building a definition that the document settles** comes to what the document says. -/
theorem Frame.Builds.amounts {g g' : Frame} (h : g.Builds setting s g' s') (hg : g.Fresh)
    (hnamed : g.named = true) (hr : s.registry.Holds defs) (hc : defs.Settles g.schema)
    (hknown : ∀ b ∈ g.schema.allOf, ∀ n, b.referenceName = some n →
      (defs.lookup n).isSome = true) :
    g'.model.type.tuple = false ∧ Amounts defs s.registry g.schema g'.model := by
  obtain ⟨-, htuple, ⟨-, hno, ho⟩ | ⟨-, hcollapses, hproperties, hall⟩⟩ := h.outline hg hnamed hc.own
  · exact ⟨htuple, .depicts hno (ho.depicts (hr.mono (h.grows hg)) hc hknown)⟩
  · exact ⟨htuple, .nothing hcollapses hproperties hall⟩

/-- A model without parts declares nothing and inherits from nothing. -/
theorem agree_of_nothing (hproperties : m.properties = []) (hall : m.allOf = []) :
    m.inherits? = none ∧ ∀ x, x ∉ names (Kcl.ownAttributes m m.parentBranch) := by
  refine ⟨?_, fun x hx => ?_⟩
  · rw [Model.inherits?, hall, Model.parentBranch, hall]
    rfl
  · rcases Kcl.mem_names_ownAttributes.mp hx with hx | ⟨i, b, hb, -⟩
    · exact absurd hx (by simp [hproperties])
    · exact absurd hb (by simp [hall])

/-- **What a definition comes to depends on the document alone.** -/
theorem Amounts.agree (h : Amounts defs r c m) (h' : Amounts defs r' c m') (hr : r.Holds defs)
    (hr' : r'.Holds defs) (hc : defs.Settles c)
    (hknown : ∀ b ∈ c.allOf, ∀ n, b.referenceName = some n → (defs.lookup n).isSome = true) :
    m.inherits? = m'.inherits? ∧
      ∀ x, x ∈ names (Kcl.ownAttributes m m.parentBranch) ↔
        x ∈ names (Kcl.ownAttributes m' m'.parentBranch) := by
  cases h with
  | depicts hno hdepicts =>
    cases h' with
    | depicts _ hdepicts' => exact hdepicts.agree hdepicts' hc
    | nothing hcollapses => exact absurd (hcollapses.of_holds hr' hr hknown) hno
  | nothing hcollapses hproperties hall =>
    cases h' with
    | depicts hno => exact absurd (hcollapses.of_holds hr hr' hknown) hno
    | nothing _ hproperties' hall' =>
      obtain ⟨hnone, hnot⟩ := agree_of_nothing hproperties hall
      obtain ⟨hnone', hnot'⟩ := agree_of_nothing hproperties' hall'
      exact ⟨hnone.trans hnone'.symm, fun x => ⟨fun hx => absurd hx (hnot x),
        fun hx => absurd hx (hnot' x)⟩⟩

/-! ## Files -/

/-- Of a definition that the document settles no branch is left to be declared: it is the parent. -/
theorem Depicts.kept (h : Depicts defs c m) (hc : defs.Settles c) {container : String} {i : Nat}
    {p p' : Model} (hp : m.allOf[i]? = some p)
    (hfills : Fills setting m.parentBranch container r i p p') : p' = p := by
  cases hfills with
  | kept => rfl
  | filled hneeds href =>
    obtain ⟨hother, -, hcomplex⟩ := needsInlining_iff.mp hneeds
    have hreferenced : p.isReferenced = true := by
      rw [Model.isReferenced, href, hcomplex]
      rfl
    exact absurd (parentBranch_eq_of_sole (fun i j p q hp hq => h.sole hc hp hq) hp hreferenced)
      hother

theorem Amounts.inlined {container : String} (h : Amounts defs r c m) (hc : defs.Settles c)
    (hproperties : m'.properties = m.properties) (hlen : m'.allOf.length = m.allOf.length)
    (hat : ∀ (i : Nat) p, m.allOf[i]? = some p → ∃ p', m'.allOf[i]? = some p' ∧
      Fills setting m.parentBranch container r' i p p') : Amounts defs r c m' := by
  refine h.congr hproperties (List.ext_getElem? fun i => ?_)
  cases hp : m.allOf[i]? with
  | none =>
    rw [List.getElem?_eq_none_iff] at hp ⊢
    omega
  | some p =>
    obtain ⟨p', hp', hfills⟩ := hat i p hp
    cases h with
    | depicts _ hdepicts => rw [hp', hdepicts.kept hc hp hfills]
    | nothing _ _ hnil => exact absurd hp (by simp [hnil])

/-- **The file of a definition that the document settles** has what the document says. -/
theorem Frame.fileFrame_amounts (hr : s.registry.Holds defs) (hget : defs.lookup name = some c)
    (hc : defs.Settles c)
    (hknown : ∀ b ∈ c.allOf, ∀ n, b.referenceName = some n → (defs.lookup n).isSome = true)
    (hsub : setting.polymorphism.isSubtype (Reference.toDefinition name) = false)
    (h : (fileFrame setting name).Gives s f s') :
    f.model.type.tuple = false ∧ Amounts defs s.registry c f.model := by
  obtain ⟨c', built, s₁, s₂, m, hc', hbuilt, ⟨-, rfl, rfl⟩ | ⟨subtype, hsub', -⟩, hinline⟩ :=
    fileFrame_cases h
  · obtain rfl := Option.some.inj ((hr.keeps name c hget).symm.trans hc')
    obtain ⟨htuple, hamounts⟩ := (builds_of_definition hbuilt).amounts root_fresh rfl hr hc hknown
    have htype := asBase_type setting name built
    obtain ⟨m, hbase, -, -, -, -, hproperties, hall, -⟩ := asBase_facts setting name built
    rw [hbase] at hinline htype
    obtain ⟨-, hproperties', hfacts, hlen, -, hat⟩ := inlined_facts hinline
    refine ⟨?_, ?_⟩
    · rw [congrArg ModelFacts.type hfacts]
      show m.type.tuple = false
      rw [htype, htuple]
    · exact (hamounts.congr hproperties hall).inlined hc hproperties' hlen hat
  · exact absurd (hsub.symm.trans hsub') (by decide)

end KclModels
