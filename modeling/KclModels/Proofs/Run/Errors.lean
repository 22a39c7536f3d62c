import Mathlib.Data.Set.Finite.Basic
import KclModels.Proofs.Build.Ending
import KclModels.Proofs.Build.Errors
import KclModels.Proofs.Build.Examining
import KclModels.Proofs.Run.Accounted
import KclModels.Text.AsciiTable

/-!
# How generating fails

In a canonical document every reference names a definition, and no definition is in a loop made of
references only. Then generating a definition never fails for a reference. It always fails for a
fault of the schema, if that is in a place that is looked at.
-/

namespace KclModels

open Relation

namespace Definitions

variable {definitions : Definitions} {n : String}

/-- The definition `n` is nothing but a reference to `m`, as far as references are followed. -/
def Aliases (definitions : Definitions) (n m : String) : Prop :=
  ∃ c, definitions.lookup n = some c ∧ c.referenceName = some m

/-- No definition is in a loop made of references only. -/
def LoopFree (definitions : Definitions) : Prop := ∀ n, ¬ TransGen definitions.Aliases n n

theorem loops_of_transGen {steps : Nat} : ∀ {visited : List String} {n : String} {c : Schema},
    TransGen definitions.Aliases n n → definitions.lookup n = some c →
    Canonical.loops definitions visited c steps = true := by
  induction steps with
  | zero => exact fun _ _ => rfl
  | succ steps ih =>
    intro visited n c hloop hget
    obtain ⟨next, halias, hback⟩ := TransGen.head'_iff.mp hloop
    have hloop' : TransGen definitions.Aliases next next := .tail' hback halias
    obtain ⟨d, hd, hnext⟩ := halias
    obtain rfl := Option.some.inj (hget.symm.trans hd)
    -- the next definition is on the loop as well
    obtain ⟨m, ⟨target, htarget, -⟩, -⟩ := TransGen.head'_iff.mp hloop'
    unfold Canonical.loops
    simp only [hnext, htarget]
    split
    · rfl
    · exact ih hloop' htarget

/-- The check for loops finds those made of references only. -/
theorem loopFree_of_checkLoops (h : Canonical.checkLoops definitions = .ok ()) :
    definitions.LoopFree := by
  intro n hloop
  obtain ⟨m, ⟨c, hget, -⟩, -⟩ := TransGen.head'_iff.mp hloop
  unfold Canonical.checkLoops at h
  split at h
  · simp at h
  · rename_i hnone
    have hnot := List.find?_eq_none.mp hnone (n, c) (Assoc.mem_of_lookup hget)
    exact hnot (loops_of_transGen hloop hget)

/-- Without loops, going from definition to definition along references ends. -/
theorem LoopFree.wellFounded (h : definitions.LoopFree) :
    WellFounded fun m n : { n // n ∈ Assoc.keys definitions } =>
      TransGen definitions.Aliases n.1 m.1 := by
  have : Finite { n // n ∈ Assoc.keys definitions } := List.finite_toSet _
  have : IsTrans { n // n ∈ Assoc.keys definitions } fun m n =>
      TransGen definitions.Aliases n.1 m.1 := ⟨fun _ _ _ hab hbc => hbc.trans hab⟩
  have : Std.Irrefl fun m n : { n // n ∈ Assoc.keys definitions } =>
      TransGen definitions.Aliases n.1 m.1 := ⟨fun a => h a.1⟩
  exact Finite.wellFounded_of_trans_of_irrefl _

/-- **In canonical definitions without loops every reference comes to an end.** -/
theorem LoopFree.leads (hl : definitions.LoopFree) (hc : definitions.Canonical) {r : Registry}
    (hr : r.definitions = definitions) {reference : String}
    (hn : Reference.name? reference = some n) (hhas : Assoc.has definitions n = true) :
    ∃ d, r.Leads reference d := by
  have hall : ∀ n : { n // n ∈ Assoc.keys definitions }, ∀ reference,
      Reference.name? reference = some n.1 → ∃ d, r.Leads reference d := by
    intro n
    induction n using hl.wellFounded.induction with
    | h n ih =>
      intro reference hn
      obtain ⟨c, hget⟩ := Option.isSome_iff_exists.mp (Assoc.has_iff_mem_keys.mpr n.2)
      have hstored : r.get? n.1 = some c := by rw [Registry.get?, hr, hget]
      cases href : c.reference with
      | none => exact ⟨c, .stop hn hstored href⟩
      | some next =>
        obtain ⟨m, hm, hmem⟩ := (hc n.1 c hget).here next href
        have halias : definitions.Aliases n.1 m :=
          ⟨c, hget, Schema.referenceName_eq href hm⟩
        obtain ⟨d, hd⟩ := ih ⟨m, Assoc.has_iff_mem_keys.mp hmem⟩ (.single halias) next hm
        exact ⟨d, .next hn hstored href hd⟩
  exact hall ⟨n, Assoc.has_iff_mem_keys.mp hhas⟩ reference hn

end Definitions

namespace Run

variable {r : Run} {name : String} {taken : List String} {e : GenerationError}

theorem session_sane (hc : r.definitions.Canonical) (hl : r.definitions.LoopFree) :
    (r.session taken).registry.Sane
      (∀ n c, r.definitions.lookup n = some c → c.Unextended) where
  fine n c hget := by
    refine ⟨Schema.Everywhere.mono (hc n c hget) fun t ht reference href => ?_,
      fun hlone => hlone n c hget⟩
    obtain ⟨m, hm, hhas⟩ := ht reference href
    exact hl.leads hc rfl hm hhas
  named n hn := absurd hn List.not_mem_nil

section

variable {tr : Text.Transliteration}

/--
**Generating never fails for a reference** if the document is canonical. It fails for what the
definition says; or it comes to no end, if a reference has a schema for further values beside it.
-/
theorem generateReserving_error (hc : r.definitions.Canonical) (hl : r.definitions.LoopFree)
    (hname : Assoc.has r.definitions name = true)
    (h : r.generateReserving name taken = .error e) :
    e.Expected ∨ (e = .endless ∧
      ∃ n c, r.definitions.lookup n = some c ∧ ¬ c.Unextended) := by
  obtain ⟨c, hget⟩ := Option.isSome_iff_exists.mp hname
  have hmeets : (Build.file r.setting name).Meets (r.session taken) _ _ :=
    Build.file_meets (session_sane hc hl) hget
  unfold generateReserving at h
  split at h
  · simp at h
  · rename_i e' s hrun
    obtain rfl := Except.error.inj h
    refine (hmeets.2 e' s hrun).imp_right fun ⟨hnot, hend⟩ => ⟨hend, ?_⟩
    push Not at hnot
    exact hnot

end

/-! ### Runs that fail -/

/-- The error that a computation ends with, if it fails. -/
def errorOf? {ε α : Type} : Except ε α → Option ε
  | .error e => some e
  | .ok _ => none

theorem eq_error_of_errorOf? {ε α : Type} {x : Except ε α} {e : ε} (h : errorOf? x = some e) :
    x = .error e := by
  cases x with
  | error e' => rw [Option.some.inj h]
  | ok a => simp [errorOf?] at h

/-- An order with a size that may be a text or a truth value, and a label. -/
def mixedOrders : Run := ofDefinitions [
  ("Label", Frame.labelSchema),
  ("Order", { types := ["object"], properties := [("size", { types := ["string", "boolean"] }),
    ("label", .referenceTo "Label")] })]

theorem mixedOrders_unsupported : mixedOrders.definitions.Canonical ∧
    mixedOrders.definitions.LoopFree ∧ Assoc.has mixedOrders.definitions "Order" = true ∧
    ∃ e, mixedOrders.generateReserving "Order" [] = .error e ∧
      (e.Expected ∨ (e = .endless ∧
        ∃ n c, mixedOrders.definitions.lookup n = some c ∧ ¬ c.Unextended)) := by
  have hc : mixedOrders.definitions.Canonical := Definitions.canonical_of_check (by decide +kernel)
  have hl : mixedOrders.definitions.LoopFree :=
    Definitions.loopFree_of_checkLoops (by decide +kernel)
  have hname : Assoc.has mixedOrders.definitions "Order" = true := by decide +kernel
  have h : mixedOrders.generateReserving "Order" [] =
      .error (.type (.unsupported "\"Order\"" ["string", "boolean"] none)) :=
    eq_error_of_errorOf? (by decide +kernel)
  exact ⟨hc, hl, hname, _, h, generateReserving_error hc hl hname h⟩

/-- A label, and an order that is a reference to it with a schema for further values beside it. -/
def extendedOrders : Run :=
  ofDefinitions [("Label", Frame.labelSchema), ("Order", Frame.extendedLabel)]

section

variable {tr : Text.Transliteration}

/-- Of a definition that is such a reference no file is made. -/
theorem generateReserving_endless (hget : r.definitions.lookup name = some Frame.extendedLabel)
    (hlabel : r.definitions.lookup "Label" = some Frame.labelSchema) :
    r.generateReserving name taken = .error .endless := by
  have hbuild : (Build.definition r.setting name Frame.extendedLabel name).Meets (r.session taken)
      (· = .endless) fun _ _ => False := Frame.buildIn_endless _ _ _ _ rfl hlabel
  -- the failure of the definition is that of its frame, and of its file
  have hframe : (Build.fileFrame r.setting name).Meets (r.session taken) (· = .endless)
      fun _ _ => False := by
    unfold Build.fileFrame
    refine Build.meets_bind (Q := fun known t => known = (r.session taken).registry ∧
      r.session taken = t) (Build.meets_registry ⟨rfl, rfl⟩) ?_
    rintro _ _ ⟨rfl, rfl⟩
    have hstored : (r.session taken).registry.get? name = some Frame.extendedLabel := hget
    rw [hstored]
    exact Build.meets_bind hbuild fun _ _ hfalse => hfalse.elim
  have hfile : (Build.file r.setting name).Meets (r.session taken) (· = .endless)
      fun _ _ => False := Build.meets_bind hframe fun _ _ hfalse => hfalse.elim
  unfold generateReserving
  split
  · rename_i file s hrun
    exact (hfile.1 file s hrun).elim
  · rename_i e s hrun
    rw [hfile.2 e s hrun]

end

/-- Generating does come to no end. -/
theorem extendedOrders_endless : extendedOrders.definitions.Canonical ∧
    extendedOrders.definitions.LoopFree ∧ Assoc.has extendedOrders.definitions "Order" = true ∧
    ∃ e, extendedOrders.generateReserving "Order" [] = .error e ∧ ¬ e.Expected :=
  ⟨Definitions.canonical_of_check (by decide +kernel),
    Definitions.loopFree_of_checkLoops (by decide +kernel), by decide +kernel, .endless,
    generateReserving_endless rfl rfl, id⟩

/-! ### Faults of schemas -/

section

variable {tr : Text.Transliteration}

/-- A definition that is generated has no faults where it is examined. -/
theorem sound_of_generateReserving {c : Schema} {file : ModelFile} {warnings : List Warning}
    {hoisted : List String} (hget : r.definitions.lookup name = some c)
    (h : r.generateReserving name taken = .ok (file, warnings, hoisted)) : c.Sound := by
  obtain ⟨s', hbuild, -⟩ := generateReserving_ok h
  obtain ⟨f, s₁, hf, -, -⟩ := Build.file_cases hbuild
  obtain ⟨d, built, s₂, -, -, hd, hbuilt, -⟩ := Build.fileFrame_cases hf
  obtain rfl : c = d := Option.some.inj (hget.symm.trans hd)
  exact Frame.build_sound hbuilt

/--
**Faults are never swallowed** where a definition is examined: if one schema describes all items and
yet more are allowed, or if one may choose from arrays or objects, no file is made.
-/
theorem generateDefinition_faulty {c t : Schema} (hget : r.definitions.lookup name = some c)
    (ht : t.Examined c) (hfault : t.Faulty) : ∃ e, r.generateDefinition name = .error e := by
  unfold generateDefinition
  cases h : r.generateReserving name [] with
  | error e => exact ⟨e, rfl⟩
  | ok made =>
    obtain ⟨file, warnings, hoisted⟩ := made
    exact absurd hfault (sound_of_generateReserving hget h t ht)

end

/-- The sizes of an order: arrays of sizes that are described, while yet more are allowed. -/
def sizes : Schema where
  types := ["array"]
  items := some (.single (.typed "integer"))
  additionalItems := some (.flag true)

/-- An order with lists of sizes, by the name of a part. -/
def sizedOrder : Schema where
  types := ["object"]
  allOf := [{ types := ["object"], properties :=
    [("parts", { types := ["object"], additionalProperties := some (.schema sizes) })] }]

theorem sizes_examined : sizes.Examined sizedOrder := by
  refine .part (Schema.open_of_short rfl (by decide) fun v hv => absurd hv (by simp [sizedOrder]))
    (Schema.branch_mem_children List.mem_cons_self) ?_
  refine .part (Schema.open_of_short rfl (by decide) fun v hv => absurd hv (by simp))
    (Schema.property_mem_children List.mem_cons_self) ?_
  refine .part (Schema.open_of_short rfl (by decide) fun v hv => ?_)
    (Schema.value_mem_children rfl) .here
  obtain rfl : sizes = v := by simpa using hv
  rfl

theorem sizedOrder_fails : (ofDefinitions [("Order", sizedOrder)]).definitions.lookup "Order" =
      some sizedOrder ∧ sizes.Examined sizedOrder ∧ sizes.Faulty ∧
    ∃ e, (ofDefinitions [("Order", sizedOrder)]).generateDefinition "Order" = .error e := by
  have hfault : sizes.Faulty := Or.inl ⟨⟨rfl, fun hlen => absurd hlen (by decide)⟩, rfl, rfl⟩
  exact ⟨rfl, sizes_examined, hfault, generateDefinition_faulty rfl sizes_examined hfault⟩

/-- A stock of maps: the maps have items that are described, while yet more are allowed. -/
def stock : Schema where
  types := ["object"]
  additionalProperties := some (.schema {
    types := ["object"]
    items := some (.single (.typed "string"))
    additionalItems := some (.flag true)
    additionalProperties := some (.schema (.typed "string")) })

/-- A fault of a schema that is not looked at is swallowed. -/
theorem stock_swallowed : (ofDefinitions [("Stock", stock)]).definitions.Canonical ∧
    (∃ t : Schema, t.Within stock ∧ t.MixesItems) ∧
    ∃ file warnings, (ofDefinitions [("Stock", stock)]).generateDefinition "Stock" =
      .ok (file, warnings) := by
  refine ⟨Definitions.canonical_of_check (by decide +kernel),
    ⟨_, .child (Schema.value_mem_children rfl) (.refl _), rfl, rfl⟩, ?_⟩
  obtain ⟨⟨file, warnings⟩, h, -⟩ := exists_ok_of_any
    (e := (ofDefinitions [("Stock", stock)]).generateDefinition "Stock") (p := fun _ => true)
    (by decide +kernel)
  exact ⟨file, warnings, h⟩

end Run

end KclModels
