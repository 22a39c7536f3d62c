import KclModels.Proofs.Build.Agreement
import KclModels.Proofs.Canonical.Settling
import KclModels.Proofs.Polymorphism.Index
import KclModels.Text.AsciiTable

/-!
# The order of the definitions

The definitions of a document stand in an order, and a run does not depend on it. Whatever goes over
all of them goes in the order of their names, and everything else asks for one of them by its name.
So documents with the same definitions in another order are made ready alike, their definitions are
built in sessions that agree, and the runs come to the same files or fail alike.
-/

namespace KclModels

/-! ## Making the document ready -/

namespace Canonical

variable {tr : Text.Transliteration}
variable {d d' : Definitions}

theorem loops_congr (hlookup : ∀ n, d'.lookup n = d.lookup n) (steps : Nat) :
    ∀ visited s, loops d' visited s steps = loops d visited s steps := by
  induction steps with
  | zero => exact fun _ _ => rfl
  | succ steps ih =>
    intro visited s
    simp only [loops, hlookup, ih]

theorem checkLoops_perm (hperm : d'.Perm d) (hnodup : (Assoc.keys d).Nodup)
    (h : checkLoops d = .ok ()) : checkLoops d' = .ok () := by
  unfold checkLoops at h ⊢
  split at h
  · simp at h
  · rename_i hnone
    have hloops := loops_congr (Assoc.lookup_perm hperm hnodup) (d.length + 1)
    have hnone' : d'.find? (fun e => loops d' [e.1] e.2 (d'.length + 1)) = none := by
      rw [List.find?_eq_none] at hnone ⊢
      intro e he
      rw [hperm.length_eq, hloops]
      exact hnone e (hperm.mem_iff.mp he)
    rw [hnone']

/-- A document without deep pointers is left as it is, and names what it refers to. -/
theorem canonicalize_plain (hplain : ∀ r ∈ d.mentions, ∃ n, Reference.name? r = some n)
    {output : Definitions} (h : canonicalize d = .ok output) :
    output = d ∧ checkLoops d = .ok () ∧
      ∀ r ∈ d.mentions, ∃ n, Reference.name? r = some n ∧ n ∈ Assoc.keys d := by
  obtain ⟨st, xs, hr, hall, rfl, hcheck⟩ := canonicalize_ok h
  have hdeep : ∀ r ∈ d.mentions, Reference.isDeep r = false := fun r hm => by
    obtain ⟨n, hn⟩ := hplain r hm
    exact isDeep_of_name? hn
  -- only deep pointers are put on record
  have hnone : xs = [] := by
    refine List.eq_nil_iff_forall_not_mem.mpr fun x hx => ?_
    have hsound := hr.sound x hx
    exact absurd (hsound.deep.symm.trans (hdeep _ hsound.mentioned)) (by decide)
  subst hnone
  have hid : ∀ r ∈ d.mentions, renamed (nameIn []) r = id r := fun r hm => by
    rw [renamed, hdeep r hm]
    rfl
  rw [List.map_nil, List.append_nil, Schema.mapPropertyReferences_congr d hid,
    Schema.mapPropertyReferences_id] at hcheck ⊢
  refine ⟨rfl, hcheck, fun r hm => ?_⟩
  rcases hall r hm with hnamed | ⟨hd, -⟩
  · exact hnamed
  · rw [hdeep r hm] at hd
    exact absurd hd (by decide)

theorem canonicalize_perm (hperm : d'.Perm d) (hnodup : (Assoc.keys d).Nodup)
    (hplain : ∀ r ∈ d.mentions, ∃ n, Reference.name? r = some n) {output : Definitions}
    (h : canonicalize d = .ok output) : output = d ∧ canonicalize d' = .ok d' := by
  obtain ⟨rfl, hcheck, hnamed⟩ := canonicalize_plain hplain h
  refine ⟨rfl, canonicalize_of_named (checkLoops_perm hperm hnodup hcheck) fun r hm => ?_⟩
  rw [Definitions.mentions_eq, (hperm.flatMap_right _).mem_iff, ← Definitions.mentions_eq] at hm
  obtain ⟨n, hn, hkey⟩ := hnamed r hm
  exact ⟨n, hn, (hperm.map Prod.fst).mem_iff.mpr hkey⟩

end Canonical

theorem Registry.agrees_of_perm {d d' : Definitions} (hperm : d'.Perm d)
    (hnodup : (Assoc.keys d).Nodup) :
    (Registry.ofDefinitions d').Agrees (Registry.ofDefinitions d) where
  get? := Assoc.lookup_perm hperm hnodup
  length := hperm.length_eq
  reserved := rfl
  hoisted := rfl

theorem Dependencies.ofDefinitions_perm {d d' : Definitions} (hperm : d'.Perm d)
    (hnodup : (Assoc.keys d).Nodup) :
    Dependencies.ofDefinitions d' = Dependencies.ofDefinitions d := by
  have hhas : Assoc.has d' = Assoc.has d := funext fun n =>
    congrArg Option.isSome (Assoc.lookup_perm hperm hnodup n)
  have hkeys : (Assoc.keys (d.map fun e =>
      (e.1, Assoc.nameSet (e.2.references.filter (Assoc.has d))))).Nodup := by
    rw [Assoc.keys, List.map_map]
    exact hnodup
  rw [Dependencies.ofDefinitions, Dependencies.ofDefinitions, hhas]
  exact congrArg Dependencies.mk (Assoc.sortedOfPairs_eq_of_perm (hperm.map _) hkeys)

namespace Run

/-- The runs differ in the order of their definitions at most. -/
structure Reorders (r' r : Run) : Prop where
  perm : r'.definitions.Perm r.definitions
  nodup : (Assoc.keys r.definitions).Nodup
  polymorphism : r'.polymorphism = r.polymorphism
  dependencies : r'.dependencies = r.dependencies
  options : r'.options = r.options
  info : r'.info = r.info

variable {r r' : Run}

theorem Reorders.lookup (h : r'.Reorders r) (n : String) :
    r'.definitions.lookup n = r.definitions.lookup n :=
  Assoc.lookup_perm h.perm h.nodup n

theorem Reorders.isExternal (h : r'.Reorders r) (n : String) : r'.isExternal n = r.isExternal n := by
  rw [Run.isExternal, Run.isExternal, h.lookup]

/-- **The same definitions are selected**, in the same order, or the same name is refused. -/
theorem Reorders.definitionNames (h : r'.Reorders r) :
    r'.definitionNames = r.definitionNames := by
  have hhas : Assoc.has r'.definitions = Assoc.has r.definitions := funext fun n =>
    congrArg Option.isSome (h.lookup n)
  have hsorted : r'.sortedNames = r.sortedNames :=
    Assoc.nameSet_eq_of_perm (h.perm.map Prod.fst)
  have hexternal : r'.isExternal = r.isExternal := funext h.isExternal
  rw [Run.definitionNames, Run.definitionNames, selection, selection, hsorted, hhas, h.options,
    h.dependencies, hexternal]

theorem Reorders.session (h : r'.Reorders r) (taken : List String) :
    (r'.session taken).Agrees (r.session taken) := by
  have hr := Registry.agrees_of_perm h.perm h.nodup
  exact ⟨⟨hr.get?, hr.length, rfl, rfl⟩, rfl⟩

section

variable {tr : Text.Transliteration}

/-- **Each definition is generated alike.** -/
theorem Reorders.generateReserving (h : r'.Reorders r) (name : String) (taken : List String) :
    r'.generateReserving name taken = r.generateReserving name taken := by
  have hsetting : r'.setting = r.setting := by
    rw [setting, setting, h.polymorphism, h.options]
  unfold Run.generateReserving buildFile
  rw [hsetting]
  have hsteady : Build.Steady (Build.file r.setting name) := Build.steady_file name
  cases hsteady _ _ (h.session taken) with
  | ok hm hm' heq =>
    obtain ⟨rfl, ht⟩ := heq
    rw [hm, hm']
    simp only [ht.warnings, ht.registry.hoisted]
  | error hm hm' heq =>
    obtain ⟨t, ht⟩ := hm
    obtain ⟨t', ht'⟩ := hm'
    rw [ht, ht', heq]

theorem Reorders.render (h : r'.Reorders r) : r'.render = r.render := by
  have hall : ∀ names taken stats,
      r'.generateAll taken stats names = r.generateAll taken stats names := by
    intro names
    induction names with
    | nil => exact fun _ _ => rfl
    | cons name rest ih =>
      intro taken stats
      simp only [generateAll, h.generateReserving, ih]
  simp only [Run.render, generate, h.dependencies, h.definitionNames, hall]

theorem Reorders.summaries (h : r'.Reorders r) : r'.summaries = r.summaries := by
  have hsummary : ∀ name s, r'.summary name s = r.summary name s := by
    intro name s
    have hresolver : Resolver.Agrees
        { registry := Registry.ofDefinitions r'.definitions, options := r.options
          modelName := name, path := name }
        { registry := Registry.ofDefinitions r.definitions, options := r.options
          modelName := name, path := name } :=
      ⟨Registry.agrees_of_perm h.perm h.nodup, rfl, rfl, rfl⟩
    simp only [summary, roleOf, h.polymorphism, h.options, h.isExternal, hresolver.resolve,
      hresolver.modelTypeName]
  simp only [Run.summaries, Polymorphism.byName_eq_of_perm h.perm h.nodup, hsummary]

/--
**The order of the definitions does not matter.** If a document whose references all name
definitions can be made ready, so can the one with the definitions in another order; both runs then
come to the same files and counts or fail with the same error, and list the same.
-/
theorem render_perm {document document' : Swagger} {options : Options} {r : Run}
    (hinfo : document'.info = document.info)
    (hperm : document'.definitions.Perm document.definitions)
    (hnodup : (Assoc.keys document.definitions).Nodup)
    (hplain : ∀ reference ∈ document.definitions.mentions,
      ∃ n, Reference.name? reference = some n)
    (h : prepare document options = .ok r) :
    ∃ r', prepare document' options = .ok r' ∧ r'.render = r.render ∧
      r'.summaries = r.summaries := by
  obtain ⟨output, hcanonical, heq⟩ := bind_eq_ok.mp h
  obtain ⟨rfl, hcanonical'⟩ :=
    Canonical.canonicalize_perm hperm hnodup hplain (mapError_ok hcanonical)
  obtain rfl := Except.ok.inj heq
  refine ⟨_, by rw [prepare, hcanonical']; rfl, ?_⟩
  -- what is read off the definitions is in the order of their names
  have hreorders : Run.Reorders
      { definitions := document'.definitions, options
        polymorphism := Polymorphism.ofDefinitions document'.definitions
        dependencies := Dependencies.ofDefinitions document'.definitions
        info := document'.info }
      { definitions := document.definitions, options
        polymorphism := Polymorphism.ofDefinitions document.definitions
        dependencies := Dependencies.ofDefinitions document.definitions
        info := document.info } :=
    ⟨hperm, hnodup, Polymorphism.ofDefinitions_perm hperm hnodup,
      Dependencies.ofDefinitions_perm hperm hnodup, rfl, hinfo⟩
  exact ⟨hreorders.render, hreorders.summaries⟩

end

/-- Entries with a note of their own, and accounts that stand below accounts. -/
def ledger : Swagger where
  definitions := [
    ("Entry", { types := ["object"], properties := [("account", .referenceTo "Account"),
      ("note", { types := ["object"], properties := [("text", .typed "string")] })] }),
    ("Account", { types := ["object"], properties := [("parent", .referenceTo "Account")] })]

/-- The same ledger with its definitions the other way round. -/
def turned : Swagger := { ledger with definitions := ledger.definitions.reverse }

theorem ledger_turned : ∃ r r' files stats, prepare ledger {} = .ok r ∧
    prepare turned {} = .ok r' ∧ r.render = .ok (files, stats) ∧
    files.map (·.path) = [["models", "account.k"], ["models", "entry.k"]] ∧
    stats.extraSchemas = 1 ∧ stats.cycles = [["Account"]] ∧
    r'.render = r.render ∧ r'.summaries = r.summaries := by
  obtain ⟨r, h, hrun⟩ := exists_ok_of_any (e := prepare ledger {})
    (p := fun r => r.render.toOption.any fun rendered =>
      rendered.1.map (·.path) == [["models", "account.k"], ["models", "entry.k"]] &&
        rendered.2.extraSchemas == 1 && rendered.2.cycles == [["Account"]])
    (by decide +kernel)
  obtain ⟨⟨files, stats⟩, hrender, hfacts⟩ := exists_ok_of_any hrun
  simp only [Bool.and_eq_true, beq_iff_eq] at hfacts
  obtain ⟨⟨hpaths, hextras⟩, hcycles⟩ := hfacts
  have hplain : (ledger.definitions.mentions.all fun r => (Reference.name? r).isSome) = true := by
    decide +kernel
  obtain ⟨r', h', hsame, hsummaries⟩ := @render_perm _ ledger turned {} r rfl
    (List.reverse_perm _) (by decide)
    (fun reference hm => Option.isSome_iff_exists.mp (List.all_eq_true.mp hplain reference hm)) h
  exact ⟨r, r', files, stats, h, h', hrender, hpaths, hextras, hcycles, hsame, hsummaries⟩

end Run

end KclModels
