import Mathlib.Logic.Function.Basic
import Mathlib.Logic.Relation
import KclModels.Proofs.Build.Linking
import KclModels.Proofs.Registry.Agreement
import KclModels.Proofs.Run.Errors
import KclModels.Proofs.Schema.Renaming

/-!
# Registries under other names

Two runs that start from the same document but may not give out the same names make the same
definitions in the same order, under names of their own. The registry of the one is then that of the
other with each name in the place of its counterpart, in the keys and in all references: a `Mirrors`
relation along a map of names. References lead to counterparts, and the shapes of schemas are equal.

Each new definition extends the map by one name. What was related before stays so, since the schemas
that are stored refer to names that are known.
-/

namespace KclModels

open Relation

namespace Assoc

variable {α : Type} {m : List (String × α)} {k : String} {v : α}

theorem put_eq_append (h : has m k = false) : put m k v = m ++ [(k, v)] := by
  induction m with
  | nil => rfl
  | cons p rest ih =>
    obtain ⟨l, w⟩ := p
    unfold has at ih h
    rw [lookup_pair] at h
    by_cases heq : k = l
    · simp [heq] at h
    · rw [if_neg heq] at h
      rw [put, if_neg (Ne.symm heq), ih h, List.cons_append]

theorem lookup_map_injective {w : String → String} {β : Type} {g : α → β}
    (hinj : ∀ n ∈ keys m, w n = w k → n = k) :
    (m.map fun e => (w e.1, g e.2)).lookup (w k) = (m.lookup k).map g := by
  induction m with
  | nil => rfl
  | cons p rest ih =>
    obtain ⟨l, v⟩ := p
    have hrest := ih fun n hn => hinj n (List.mem_cons_of_mem _ hn)
    rw [List.map_cons, lookup_pair, lookup_pair]
    by_cases heq : k = l
    · rw [if_pos (congrArg w heq), if_pos heq]
      rfl
    · rw [if_neg heq, if_neg fun h => heq (hinj l List.mem_cons_self h.symm).symm, hrest]

end Assoc

namespace Registry

variable {w w' w₁ : String → String} {docs : List String} {r r' r₁ : Registry} {c d : Schema}
variable {reference n : String} {e : ReferenceError}

/-- The name has a definition. -/
def Defines (r : Registry) (n : String) : Prop := n ∈ Assoc.keys r.definitions

/-- What the reference names has a definition. -/
def Reaches (r : Registry) (reference : String) : Prop :=
  ∀ n, Reference.name? reference = some n → r.Defines n

/-- What is known of the names of `r` along `w` is known along `w₁` in `r₁` as well. -/
def Extends (w : String → String) (r : Registry) (w₁ : String → String) (r₁ : Registry) : Prop :=
  ∀ n, r.Defines n → r₁.Defines n ∧ w₁ n = w n

theorem Extends.refl (w : String → String) (r : Registry) : Extends w r w r := fun _ h => ⟨h, rfl⟩

theorem Extends.trans {w₂ : String → String} {r₂ : Registry} (h : Extends w r w₁ r₁)
    (h' : Extends w₁ r₁ w₂ r₂) : Extends w r w₂ r₂ := by
  intro n hn
  obtain ⟨hn₁, heq⟩ := h n hn
  obtain ⟨hn₂, heq'⟩ := h' n hn₁
  exact ⟨hn₂, heq'.trans heq⟩

/-- A schema that refers to what is known stays the same under further names. -/
theorem Extends.rename (h : Extends w r w₁ r₁) (hc : c.Known r.Defines unasked) :
    c.rename w₁ = c.rename w := by
  refine Schema.rename_congr fun reference hm n hn => (h n ?_).2
  obtain ⟨t, ht, href⟩ := Schema.mem_mentions.mp hm
  exact (hc t ht).1 n (Schema.referenceName_eq href hn)

theorem Extends.known (h : Extends w r w₁ r₁) (hc : c.Known r.Defines unasked) :
    c.Known r₁.Defines unasked := hc.mono fun n hn => (h n hn).1

theorem defines_iff : r.Defines n ↔ ∃ c, r.get? n = some c := by
  rw [Defines, ← Assoc.has_iff_mem_keys, Assoc.has, Option.isSome_iff_exists]
  rfl

theorem reaches_of_known (h : c.Known r.Defines unasked) (href : c.reference = some reference) :
    r.Reaches reference := fun n hn =>
  h.here.1 n (Schema.referenceName_eq href hn)

/--
The registry `r'` is the registry `r` with each name `n` replaced by `w n`. The names of `docs` stay
as they are. In `r`, what is referred to is defined, and no definition loops on itself.
-/
structure Mirrors (docs : List String) (w : String → String) (r r' : Registry) : Prop where
  definitions : r'.definitions = r.definitions.map fun e => (w e.1, e.2.rename w)
  injective : ∀ m n, r.Defines m → r.Defines n → w m = w n → m = n
  docs : ∀ n ∈ docs, r.Defines n ∧ w n = n
  /-- What can be referred to can still be referred to. -/
  named : ∀ n, r.Defines n → Reference.name? (Reference.toDefinition n) = some n →
    Reference.name? (Reference.toDefinition (w n)) = some (w n)
  closed : ∀ e ∈ r.definitions, e.2.Known r.Defines unasked
  loopFree : r.definitions.LoopFree

theorem Mirrors.known_of_get? (h : r.Mirrors docs w r') (hc : r.get? n = some c) :
    c.Known r.Defines unasked := h.closed (n, c) (Assoc.mem_of_lookup hc)

theorem Mirrors.length (h : r.Mirrors docs w r') :
    r'.definitions.length = r.definitions.length := by rw [h.definitions, List.length_map]

theorem Mirrors.get? (h : r.Mirrors docs w r') (hn : r.Defines n) :
    r'.get? (w n) = (r.get? n).map (Schema.rename w) := by
  rw [Registry.get?, h.definitions,
    Assoc.lookup_map_injective fun m hm => h.injective m n hm hn]
  rfl

/-- A name of the document has no counterpart but itself. -/
theorem Mirrors.mem_docs (h : r.Mirrors docs w r') (hn : r.Defines n) (hw : w n ∈ docs) :
    n ∈ docs := by
  obtain ⟨hdefined, hsame⟩ := h.docs _ hw
  rwa [← h.injective _ _ hdefined hn hsame]

/-! ## Following references -/

theorem Mirrors.name? (h : r.Mirrors docs w r') (hreach : r.Reaches reference) :
    Reference.name? (Reference.rename w reference) = (Reference.name? reference).map w := by
  cases hn : Reference.name? reference with
  | none => rw [Reference.rename_of_none hn, hn, Option.map_none]
  | some n =>
    have hself := hn
    rw [Reference.eq_toDefinition hn] at hself
    rw [Reference.rename_of_name? hn, h.named n (hreach n hn) hself, Option.map_some]

theorem Mirrors.rename_injective (h : r.Mirrors docs w r') {reference' : String}
    (hreach : r.Reaches reference) (hreach' : r.Reaches reference')
    (heq : Reference.rename w reference = Reference.rename w reference') :
    reference = reference' := by
  have hnames := congrArg Reference.name? heq
  rw [h.name? hreach, h.name? hreach'] at hnames
  cases hn : Reference.name? reference with
  | none =>
    rw [hn, Option.map_none] at hnames
    have hn' := Option.map_eq_none_iff.mp hnames.symm
    rwa [Reference.rename_of_none hn, Reference.rename_of_none hn'] at heq
  | some n =>
    rw [hn, Option.map_some] at hnames
    obtain ⟨n', hn', hsame⟩ := Option.map_eq_some_iff.mp hnames.symm
    rw [Reference.eq_toDefinition hn, Reference.eq_toDefinition hn',
      h.injective n' n (hreach' n' hn') (hreach n hn) hsame]

/-- **A reference names counterparts**, or is refused alike. -/
theorem Mirrors.lookup (h : r.Mirrors docs w r') (hreach : r.Reaches reference) :
    r'.lookup (Reference.rename w reference) =
      (r.lookup reference).map (Schema.rename w) := by
  cases hn : Reference.name? reference with
  | none =>
    rw [Reference.rename_of_none hn, Registry.lookup, Registry.lookup, hn]
    split <;> rfl
  | some n =>
    have hname := h.name? hreach
    rw [hn, Option.map_some] at hname
    obtain ⟨c, hc⟩ := defines_iff.mp (hreach n hn)
    have hc' : r'.get? (w n) = some (c.rename w) := by
      rw [h.get? (hreach n hn), hc, Option.map_some]
    rw [lookup_of_name? hname hc', lookup_of_name? hn hc]
    rfl

/-- A reference that is looked up gives a schema that refers to what is known. -/
theorem Mirrors.known_of_lookup (h : r.Mirrors docs w r') (hc : r.lookup reference = .ok c) :
    c.Known r.Defines unasked := by
  obtain ⟨n, -, hget⟩ := lookup_ok hc
  exact h.known_of_get? hget

theorem contains_map_injective {w : String → String} {l : List String} {a : String}
    (hinj : ∀ b ∈ l, w b = w a → b = a) : (l.map w).contains (w a) = l.contains a := by
  rw [Bool.eq_iff_iff, List.contains_iff_mem, List.contains_iff_mem, List.mem_map]
  exact ⟨fun ⟨b, hb, heq⟩ => hinj b hb heq ▸ hb, fun ha => ⟨a, ha, rfl⟩⟩

/-- The error with another start of the chain. -/
def restart (start : String) : ReferenceError → ReferenceError
  | .cyclic _ => .cyclic start
  | e => e

/-- References are followed in step. -/
theorem Mirrors.followFrom (h : r.Mirrors docs w r') (start start' : String) (steps : Nat) :
    ∀ visited current, (∀ v ∈ visited, r.Reaches v) → r.Reaches current →
      r'.followFrom start' (visited.map (Reference.rename w)) (Reference.rename w current) steps =
        ((r.followFrom start visited current steps).map (Schema.rename w)).mapError
          (restart start') := by
  induction steps with
  | zero => exact fun _ _ _ _ => rfl
  | succ steps ih =>
    intro visited current hvisited hcurrent
    have hcontains := contains_map_injective fun v hv =>
      h.rename_injective (hvisited v hv) hcurrent
    unfold Registry.followFrom
    rw [hcontains, h.lookup hcurrent]
    split
    · rfl
    · cases hl : r.lookup current with
      | error e =>
        -- a lookup fails with a reference that it names, not with where one started
        have hkept : restart start' e = e := by
          unfold Registry.lookup at hl
          split at hl
          · rw [← Except.error.inj hl]
            rfl
          · split at hl
            · simp at hl
            · rw [← Except.error.inj hl]
              rfl
        show Except.error e = Except.error (restart start' e)
        rw [hkept]
      | ok c =>
        have hc := h.known_of_lookup hl
        simp only [Except.map, bind, Except.bind, Schema.reference_rename]
        cases href : c.reference with
        | none => rfl
        | some next =>
          refine ih (current :: visited) next (fun v hv => ?_) (reaches_of_known hc href)
          rcases List.mem_cons.mp hv with rfl | hv
          · exact hcurrent
          · exact hvisited v hv

/-- What a chain went through leads on to where it is. -/
def Trails (r : Registry) (visited : List String) (current : String) : Prop :=
  ∀ v ∈ visited, ∃ m, Reference.name? v = some m ∧ r.Defines m ∧ ∀ n,
    Reference.name? current = some n → TransGen r.definitions.Aliases m n

/-- **Without loops no reference is followed for ever.** -/
theorem followFrom_not_cyclic (hloop : r.definitions.LoopFree) {start : String} (steps : Nat) :
    ∀ visited current, visited.Nodup → r.definitions.length < visited.length + steps →
      r.Trails visited current → ∀ s, r.followFrom start visited current steps ≠ .error (.cyclic s) := by
  induction steps with
  | zero =>
    intro visited current hnodup hlen htrails
    -- as many definitions as were visited would be too many
    exfalso
    have hnames : ∀ v ∈ visited, v ∈ (Assoc.keys r.definitions).map Reference.toDefinition := by
      intro v hv
      obtain ⟨m, hm, hdefined, -⟩ := htrails v hv
      exact List.mem_map.mpr ⟨m, hdefined, (Reference.eq_toDefinition hm).symm⟩
    have hle := (List.subperm_of_subset hnodup hnames).length_le
    rw [List.length_map, Assoc.keys, List.length_map] at hle
    omega
  | succ steps ih =>
    intro visited current hnodup hlen htrails s h
    unfold Registry.followFrom at h
    have hnew : current ∉ visited := by
      intro hmem
      obtain ⟨m, hm, -, hback⟩ := htrails current hmem
      exact hloop m (hback m hm)
    rw [if_neg fun hmem => hnew (List.contains_iff_mem.mp hmem)] at h
    cases hl : r.lookup current with
    | error e =>
      rw [hl] at h
      obtain rfl := Except.error.inj h
      unfold Registry.lookup at hl
      split at hl
      · simp at hl
      · split at hl <;> simp at hl
    | ok c =>
      obtain ⟨n, hn, hget⟩ := lookup_ok hl
      rw [hl] at h
      simp only [bind, Except.bind] at h
      split at h
      · rename_i next hnext
        refine ih (current :: visited) next (List.nodup_cons.mpr ⟨hnew, hnodup⟩)
          (by rw [List.length_cons]; omega) (fun v hv => ?_) s h
        have halias : ∀ m, Reference.name? next = some m → r.definitions.Aliases n m :=
          fun m hm => ⟨c, hget, by rw [Schema.referenceName, hnext]; exact hm⟩
        rcases List.mem_cons.mp hv with rfl | hv
        · exact ⟨n, hn, mem_keys_of_get? hget, fun m hm => .single (halias m hm)⟩
        · obtain ⟨m, hm, hdefined, hon⟩ := htrails v hv
          exact ⟨m, hm, hdefined, fun k hk => (hon n hn).tail (halias k hk)⟩
      · simp at h

/-- **References lead to counterparts**, or to nothing for the same reason. -/
theorem Mirrors.resolve (h : r.Mirrors docs w r') (hreach : r.Reaches reference) :
    r'.resolve (Reference.rename w reference) = (r.resolve reference).map (Schema.rename w) := by
  have hfollow := h.followFrom reference (Reference.rename w reference) (r.definitions.length + 2)
    [] reference (fun v hv => absurd hv List.not_mem_nil) hreach
  have hnot : ∀ s, r.followFrom reference [] reference (r.definitions.length + 2) ≠
      .error (.cyclic s) :=
    followFrom_not_cyclic h.loopFree (r.definitions.length + 2) [] reference List.nodup_nil
      (by simp) (fun v hv => absurd hv List.not_mem_nil)
  rw [Registry.resolve, Registry.resolve, h.length]
  refine hfollow.trans ?_
  cases hr : r.followFrom reference [] reference (r.definitions.length + 2) with
  | ok c => rfl
  | error e =>
    cases e with
    | cyclic s => exact absurd hr (hnot s)
    | unresolved _ => rfl
    | remote _ => rfl

theorem Mirrors.known_of_resolve (h : r.Mirrors docs w r') (hc : r.resolve reference = .ok c) :
    c.Known r.Defines unasked := by
  obtain ⟨n, hget⟩ := (resolve_leads hc).exists_stored
  exact h.known_of_get? hget

/-! ## New definitions -/

theorem definitions_hoist (r : Registry) (base : String) (c : Schema) :
    (r.hoist base c).2.definitions = r.definitions ++ [((r.hoist base c).1, c)] := by
  refine Assoc.put_eq_append ?_
  have hfree := hoist_fresh r base c
  unfold contains at hfree
  exact (Bool.or_eq_false_iff.mp hfree).1

theorem defines_hoist {base : String} :
    (r.hoist base c).2.Defines n ↔ r.Defines n ∨ n = (r.hoist base c).1 := by
  rw [Defines, definitions_hoist, Assoc.keys, List.map_append, List.mem_append]
  exact or_congr_right List.mem_singleton

theorem not_defines_of_fresh {base : String} : ¬ r.Defines (r.hoist base c).1 := by
  intro h
  have hused : r.contains (r.hoist base c).1 = true :=
    Bool.or_eq_true_iff.mpr (Or.inl (Assoc.has_iff_mem_keys.mpr h))
  rw [hoist_fresh] at hused
  exact absurd hused (by decide)

/-- A definition to which nothing that is stored refers is on no loop. -/
theorem loopFree_hoist {base : String} (hloop : r.definitions.LoopFree)
    (hclosed : ∀ e ∈ r.definitions, e.2.Known r.Defines unasked)
    (hc : c.Known r.Defines unasked) : (r.hoist base c).2.definitions.LoopFree := by
  have hstep : ∀ m n, (r.hoist base c).2.definitions.Aliases m n →
      r.Defines n ∧ (r.Defines m → r.definitions.Aliases m n) := by
    rintro m n ⟨d, hd, hname⟩
    have hget : (r.hoist base c).2.get? m = some d := hd
    rw [get?_hoist] at hget
    split at hget
    · rename_i hm
      obtain rfl := Option.some.inj hget
      exact ⟨hc.here.1 n hname, fun hdefined => absurd (hm ▸ hdefined) not_defines_of_fresh⟩
    · exact ⟨(hclosed (m, d) (Assoc.mem_of_lookup hget)).here.1 n hname, fun _ => ⟨d, hget, hname⟩⟩
  -- every definition on a loop is referred to, so none of them is the new one
  have hpath : ∀ m n, TransGen (r.hoist base c).2.definitions.Aliases m n → r.Defines m →
      TransGen r.definitions.Aliases m n ∧ r.Defines n := by
    intro m n hmn hm
    induction hmn with
    | single h => exact ⟨.single ((hstep _ _ h).2 hm), (hstep _ _ h).1⟩
    | tail _ h ih => exact ⟨ih.1.tail ((hstep _ _ h).2 ih.2), (hstep _ _ h).1⟩
  intro n hn
  obtain ⟨m, hnm, hmn⟩ := TransGen.head'_iff.mp hn
  have hm : r.Defines m := (hstep _ _ hnm).1
  rcases ReflTransGen.cases_head hmn with rfl | ⟨k, hmk, hkn⟩
  · exact hloop m (.single ((hstep _ _ hnm).2 hm))
  · obtain ⟨hpath₁, hdefined⟩ := hpath m n (.head' hmk hkn) hm
    exact hloop n (.head ((hstep _ _ hnm).2 hdefined) hpath₁)

/-- **A definition that is made on both sides gets a name and its counterpart.** -/
theorem Mirrors.hoist (h : r.Mirrors docs w r') (hc : c.Known r.Defines unasked)
    {base base' : String}
    (hplain : Naming.Plain (r'.hoist base' (c.rename w)).1) :
    ∃ w₁, Extends w r w₁ (r.hoist base c).2 ∧
      w₁ (r.hoist base c).1 = (r'.hoist base' (c.rename w)).1 ∧
      (r.hoist base c).2.Mirrors docs w₁ (r'.hoist base' (c.rename w)).2 := by
  have hfresh : ¬ r.Defines (r.hoist base c).1 := not_defines_of_fresh
  have hfresh' : ¬ r'.Defines (r'.hoist base' (c.rename w)).1 := not_defines_of_fresh
  have hdefs := definitions_hoist r base c
  have hdefs' := definitions_hoist r' base' (c.rename w)
  have hdefines : ∀ m, (r.hoist base c).2.Defines m ↔ r.Defines m ∨ m = (r.hoist base c).1 :=
    fun _ => defines_hoist
  have hloop : (r.hoist base c).2.definitions.LoopFree :=
    loopFree_hoist h.loopFree h.closed hc
  generalize (r.hoist base c).2 = r₁ at *
  generalize (r'.hoist base' (c.rename w)).2 = r₁' at *
  generalize (r.hoist base c).1 = n at *
  generalize (r'.hoist base' (c.rename w)).1 = n' at *
  have hold : ∀ m, r.Defines m → Function.update w n n' m = w m := by
    intro m hm
    refine Function.update_of_ne ?_ n' w
    rintro rfl
    exact hfresh hm
  have hself : Function.update w n n' n = n' := Function.update_self ..
  have hextends : Extends w r (Function.update w n n') r₁ := fun m hm =>
    ⟨(hdefines m).mpr (Or.inl hm), hold m hm⟩
  -- a counterpart of what was known is in use, so it is not the new name
  have hused : ∀ m, r.Defines m → w m ≠ n' := by
    rintro m hm rfl
    refine hfresh' ?_
    obtain ⟨e, he, rfl⟩ := List.mem_map.mp hm
    rw [Defines, h.definitions, Assoc.keys, List.map_map]
    exact List.mem_map.mpr ⟨e, he, rfl⟩
  refine ⟨Function.update w n n', hextends, hself, ?_⟩
  generalize Function.update w n n' = w₁ at *
  refine ⟨?_, fun k m hk hm heq => ?_, fun m hm => ?_, fun m hm hname => ?_, fun e he => ?_, hloop⟩
  · rw [hdefs', hdefs, h.definitions, List.map_append, List.map_singleton, hself,
      hextends.rename hc]
    refine congrArg (· ++ _) (List.map_congr_left fun e he => ?_)
    rw [hold e.1 (List.mem_map_of_mem he), hextends.rename (h.closed e he)]
  · rcases (hdefines k).mp hk with hk | rfl <;> rcases (hdefines m).mp hm with hm | rfl
    · exact h.injective k m hk hm ((hold k hk).symm.trans (heq.trans (hold m hm)))
    · exact absurd ((hold k hk).symm.trans (heq.trans hself)) (hused k hk)
    · exact absurd ((hold m hm).symm.trans (heq.symm.trans hself)) (hused m hm)
    · rfl
  · obtain ⟨hdefined, hsame⟩ := h.docs m hm
    exact ⟨(hextends m hdefined).1, (hold m hdefined).trans hsame⟩
  · rcases (hdefines m).mp hm with hm | rfl
    · rw [hold m hm]
      exact h.named m hm hname
    · rw [hself]
      exact Reference.name?_of_plain hplain
  · rw [hdefs] at he
    rcases List.mem_append.mp he with he | he
    · exact hextends.known (h.closed e he)
    · obtain rfl := List.mem_singleton.mp he
      exact hextends.known hc

end Registry

/-! ## Shapes -/

namespace Shape

open Registry

variable {w : String → String} {docs : List String} {r r' : Registry} {c : Schema}

theorem ofParts_rename (simpleItem simpleValue : Bool) :
    ofParts (c.rename w) simpleItem simpleValue = ofParts c simpleItem simpleValue := by
  have hknown : isKnown (c.rename w) = isKnown c := by
    simp [isKnown]
  unfold ofParts
  rw [hknown]
  simp

theorem behind_mirrors (h : r.Mirrors docs w r') (hc : c.Known r.Defines unasked) :
    behind r' (c.rename w) = (behind r c).map (Schema.rename w) := by
  unfold behind
  rw [Schema.reference_rename]
  cases href : c.reference with
  | none => rfl
  | some reference => exact h.resolve (reaches_of_known hc href)

theorem known_of_behind (h : r.Mirrors docs w r') (hc : c.Known r.Defines unasked) {d : Schema}
    (hd : behind r c = .ok d) : d.Known r.Defines unasked := by
  unfold behind at hd
  split at hd
  · exact h.known_of_resolve hd
  · exact Except.ok.inj hd ▸ hc

theorem simplePart_rename {shape shape' : Schema → Except ReferenceError Shape} {counts : Bool}
    {part : Option Schema} (h : ∀ d, part = some d → shape' (d.rename w) = shape d) :
    simplePart shape' counts (part.map (Schema.rename w)) = simplePart shape counts part := by
  cases part with
  | none => rfl
  | some d =>
    rw [Option.map_some, simplePart, simplePart, h d rfl]

theorem ofSchemaIn_mirrors (h : r.Mirrors docs w r') (levels : Nat) :
    ∀ {c : Schema}, c.Known r.Defines unasked →
      ofSchemaIn r' levels (c.rename w) = ofSchemaIn r levels c := by
  induction levels with
  | zero =>
    intro c hc
    rw [ofSchemaIn, ofSchemaIn, behind_mirrors h hc]
    cases behind r c <;> rfl
  | succ levels ih =>
    intro c hc
    rw [ofSchemaIn, ofSchemaIn, behind_mirrors h hc]
    cases hd : behind r c with
    | error e =>
      -- what would come after the error must not be compared
      show Except.error e = Except.error e
      rfl
    | ok d =>
      have hknown := known_of_behind h hc hd
      simp only [Except.map, bind, Except.bind, ofParts_rename, Schema.singleItem?_rename,
        Schema.extraValue?_rename]
      rw [simplePart_rename fun e he => ih (hknown.child (Schema.item_mem_children
          (Schema.items_of_singleItem? he))),
        simplePart_rename fun e he => ih (hknown.child (Schema.value_mem_children
          (Schema.value_of_extraValue? he)))]

/-- **Counterparts have the same shape.** -/
theorem ofSchema_mirrors (h : r.Mirrors docs w r') (hc : c.Known r.Defines unasked) :
    ofSchema r' (c.rename w) = ofSchema r c := ofSchemaIn_mirrors h _ hc

end Shape

end KclModels
