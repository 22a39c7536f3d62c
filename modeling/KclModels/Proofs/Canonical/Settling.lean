import KclModels.Proofs.Canonical.Output
import KclModels.Proofs.Naming.Pascal
import KclModels.Proofs.Run.Errors
import KclModels.Text.AsciiTable

/-!
# What canonicalizing settles

The definition made for a pointer is named after the owner of the pointer and the words of the names
on its path. The words have no slash, so the name can be referred to just if the owner's can. If all
owners can, every reference of the result names a definition of it, and canonicalizing the result
changes nothing. The name of an owner with a slash, which a pointer escapes, is not escaped in the
name that is made: the reference to that name is a pointer again, and leads nowhere.
-/

namespace KclModels

namespace Reference

theorem unescapeSlash_ne_nil {token : List Char} (h : token ≠ []) : unescapeSlash token ≠ [] := by
  fun_cases unescapeSlash token with
  | case1 => simp
  | case2 => simp
  | case3 => exact absurd rfl h

theorem unescapeTilde_ne_nil {token : List Char} (h : token ≠ []) : unescapeTilde token ≠ [] := by
  fun_cases unescapeTilde token with
  | case1 => simp
  | case2 => simp
  | case3 => exact absurd rfl h

/-- No token of a pointer is empty. -/
theorem ne_empty_of_mem_tokens {reference token : String} (h : token ∈ tokens reference) :
    token ≠ "" := by
  obtain ⟨piece, hpiece, rfl⟩ := List.mem_map.mp h
  have hne : piece ≠ [] := by simpa using (List.mem_filter.mp hpiece).2
  intro hempty
  rw [unescape, ← String.toList_inj, String.toList_ofList] at hempty
  exact unescapeTilde_ne_nil (unescapeSlash_ne_nil hne) hempty

end Reference

namespace Canonical

variable {tr : Text.Transliteration}
variable {document output : Definitions} {st : Relocation} {xs : List Relocated} {x : Relocated}
variable {owner r : String} {path : List String}

/-! ## The names that are made -/

theorem slash_mem_relocatedName :
    '/' ∈ (relocatedName owner path).toList ↔ '/' ∈ owner.toList := by
  have hwords : '/' ∉ (String.join ((path.filter (!keywordTokens.contains ·)).map
      Naming.pascalize)).toList := by
    rw [String.toList_join]
    intro hmem
    obtain ⟨word, hword, hmem⟩ := List.mem_flatMap.mp hmem
    obtain ⟨token, -, rfl⟩ := List.mem_map.mp hword
    exact absurd ((Naming.pascalize_plain token).chars _ hmem) (by decide)
  rw [relocatedName, String.toList_append, List.mem_append, or_iff_left hwords]

theorem slash_mem_numbered (base : String) (i : Nat) :
    '/' ∈ (numbered base i).toList ↔ '/' ∈ base.toList := by
  unfold numbered
  split
  · rfl
  · rw [String.toList_append, List.mem_append, or_iff_left]
    intro hmem
    rw [Nat.toString_eq_repr, Nat.toList_repr] at hmem
    exact absurd (Nat.isDigit_of_mem_toDigits (by decide) (by decide) hmem) (by decide)

theorem numbered_ne_empty {base : String} (h : base ≠ "") (i : Nat) : numbered base i ≠ "" := by
  unfold numbered
  split
  · exact h
  · simp [h]

theorem Relocated.Sound.name_ne_empty (h : x.Sound document) : x.name ≠ "" := by
  obtain ⟨owner, path, i, htokens, hname⟩ := h.named
  have howner : owner ≠ "" :=
    Reference.ne_empty_of_mem_tokens (htokens ▸ List.mem_cons_of_mem _ List.mem_cons_self)
  rw [hname]
  exact numbered_ne_empty (by simp [relocatedName, howner]) i

/-- The name that is made has a slash if the owner's has one. -/
theorem Relocated.Sound.slash_mem (h : x.Sound document)
    (htokens : Reference.tokens x.reference = "definitions" :: owner :: path) :
    '/' ∈ x.name.toList ↔ '/' ∈ owner.toList := by
  obtain ⟨owner', path', i, htokens', hname⟩ := h.named
  rw [htokens, List.cons.injEq, List.cons.injEq] at htokens'
  obtain ⟨-, rfl, rfl⟩ := htokens'
  rw [hname, slash_mem_numbered, slash_mem_relocatedName]

/-! ## The references of the result -/

/-- The references of the result are those of the document, with names in place of pointers. -/
theorem mentions_output (hr : Records document st xs) {r' : String} :
    r' ∈ Definitions.mentions (Schema.mapPropertyReferences (renamed (nameIn xs)) document ++
      xs.map (Relocated.made xs)) ↔
      ∃ r ∈ document.mentions, renamed (nameIn xs) r = r' := by
  have hfirst : Definitions.mentions (Schema.mapPropertyReferences (renamed (nameIn xs)) document) =
      document.mentions.map (renamed (nameIn xs)) :=
    Schema.propertyMentions_mapPropertyReferences document
  rw [Definitions.mentions_eq, List.flatMap_append, ← Definitions.mentions_eq, hfirst,
    List.mem_append, List.mem_map]
  refine or_iff_left_of_imp fun hmem => ?_
  -- a copy has no references but those of the document
  obtain ⟨_, he, hmem⟩ := List.mem_flatMap.mp hmem
  obtain ⟨x, hx, rfl⟩ := List.mem_map.mp he
  rw [Relocated.made, Schema.mentions_mapReferences] at hmem
  obtain ⟨r, hm, rfl⟩ := List.mem_map.mp hmem
  exact ⟨r, (hr.sound x hx).target.mentions r hm, rfl⟩

/-- Definitions in which every reference names one of them, and that do not loop, stay. -/
theorem canonicalize_of_named (hcheck : checkLoops output = .ok ())
    (hnamed : ∀ r ∈ output.mentions, ∃ n, Reference.name? r = some n ∧ n ∈ Assoc.keys output) :
    canonicalize output = .ok output := by
  have hid : ∀ r ∈ output.mentions, renamed (nameIn []) r = id r := by
    intro r hm
    obtain ⟨n, hn, -⟩ := hnamed r hm
    rw [renamed, isDeep_of_name? hn]
    rfl
  have hall := redirectProperties_of_settled output fun r hm =>
    redirectReference_of_settled (records_start output) (Or.inl (hnamed r hm))
  rw [Schema.mapPropertyReferences_congr output hid, Schema.mapPropertyReferences_id] at hall
  obtain ⟨st, hpending⟩ := redirectPending_ok (fun r hm => Or.inl (hnamed r hm)) []
    (records_start output) rfl (fun _ hx => absurd hx List.not_mem_nil)
    (Nat.zero_le (Schema.propertiesSize output))
  refine canonicalize_eq_ok_iff.mpr ⟨output, _, [], st, hall, hpending, ?_, ?_⟩
  · rw [List.append_nil, hcheck]
  · exact List.append_nil _

end Canonical

/-- The pointers of the definitions lead into definitions whose names have no slash. -/
def Definitions.PlainOwners (definitions : Definitions) : Prop :=
  ∀ r ∈ definitions.mentions, Reference.isDeep r = true →
    ∀ owner path, Reference.Reads r ("definitions" :: owner :: path) → '/' ∉ owner.toList

namespace Canonical

open Run (exists_ok_of_any)

variable {document output : Definitions} {st : Relocation} {xs : List Relocated} {x : Relocated}

/-- The result defines the names of the document and those that were made. -/
theorem keys_output (document : Definitions) (xs : List Relocated) :
    Assoc.keys (Schema.mapPropertyReferences (renamed (nameIn xs)) document ++
      xs.map (Relocated.made xs)) = Assoc.keys document ++ xs.map (·.name) := by
  rw [← keys_made xs xs, ← Schema.keys_mapPropertyReferences (g := renamed (nameIn xs)) document]
  exact List.map_append

section

variable {tr : Text.Transliteration}

/-- A document that has each name once has each name once when it is made canonical. -/
theorem canonicalize_nodup (h : canonicalize document = .ok output)
    (hkeys : (Assoc.keys document).Nodup) : (Assoc.keys output).Nodup := by
  obtain ⟨st, xs, hr, -, rfl, -⟩ := canonicalize_ok h
  rw [keys_output]
  refine hkeys.append hr.names fun n hn hmade => ?_
  obtain ⟨x, hx, rfl⟩ := List.mem_map.mp hmade
  exact (hr.sound x hx).fresh hn

/-- **A name that the result refers to is defined**, whatever the names of the document. -/
theorem canonicalize_names (h : canonicalize document = .ok output) (hm : r ∈ output.mentions)
    {n : String} (hn : Reference.name? r = some n) : n ∈ Assoc.keys output := by
  obtain ⟨st, xs, hr, hall, rfl, -⟩ := canonicalize_ok h
  obtain ⟨r₀, hm₀, rfl⟩ := (mentions_output hr).mp hm
  rw [keys_output]
  rcases hall r₀ hm₀ with ⟨m, hname, hkey⟩ | ⟨hdeep, x, hx, rfl⟩
  · rw [renamed, isDeep_of_name? hname] at hn
    obtain rfl := Option.some.inj (hname.symm.trans hn)
    exact List.mem_append_left _ hkey
  · rw [renamed, if_pos hdeep, hr.nameIn_eq hx] at hn
    rw [Reference.eq_of_name?_toDefinition hn]
    exact List.mem_append_right _ (List.mem_map_of_mem hx)

/-- The definitions of the result name definitions of it, at any depth. -/
theorem canonicalize_known (h : canonicalize document = .ok output) {e : String × Schema}
    (he : e ∈ output) : e.2.Known (· ∈ Assoc.keys output) unasked := by
  refine Schema.known_unasked.mpr fun t ht n hn => ?_
  obtain ⟨reference, href, hname⟩ := Option.bind_eq_some_iff.mp hn
  refine canonicalize_names h ?_ hname
  rw [Definitions.mentions_eq]
  exact List.mem_flatMap.mpr ⟨e, he, Schema.mem_mentions.mpr ⟨t, ht, href⟩⟩

/-- The references of the result name definitions just if the owners of pointers have no slash. -/
theorem named_iff_plainOwners (h : canonicalize document = .ok output) :
    (∀ r ∈ output.mentions, ∃ n, Reference.name? r = some n ∧ n ∈ Assoc.keys output) ↔
      document.PlainOwners := by
  obtain ⟨st, xs, hr, hall, rfl, -⟩ := canonicalize_ok h
  constructor
  · intro hnamed r hm hdeep owner path hread hslash
    -- a slash in the owner is a slash in the name, and no such name can be referred to
    obtain ⟨x, hx, rfl⟩ := (hall r hm).exists_of_deep hdeep
    obtain ⟨n, hn, -⟩ := hnamed _ ((mentions_output hr).mpr ⟨_, hm, rfl⟩)
    rw [renamed, if_pos hdeep, hr.nameIn_eq hx, Reference.name?_toDefinition_of_slash
      (((hr.sound x hx).slash_mem (Reference.reads_iff.mp hread).2).mpr hslash)] at hn
    exact absurd hn (by simp)
  · intro hplain r' hm'
    obtain ⟨r, hm, rfl⟩ := (mentions_output hr).mp hm'
    rw [keys_output]
    rcases hall r hm with ⟨n, hn, hkey⟩ | ⟨hdeep, x, hx, rfl⟩
    · refine ⟨n, ?_, List.mem_append_left _ hkey⟩
      rw [renamed, isDeep_of_name? hn]
      exact hn
    · have hs := hr.sound x hx
      obtain ⟨owner, path, i, htokens, -⟩ := hs.named
      have hread := Reference.reads_iff.mpr ⟨(Bool.and_eq_true_iff.mp hdeep).1, htokens⟩
      have hslash : '/' ∉ x.name.toList :=
        (hs.slash_mem htokens).not.mpr (hplain _ hm hdeep owner path hread)
      refine ⟨x.name, ?_, List.mem_append_right _ (List.mem_map.mpr ⟨x, hx, rfl⟩)⟩
      rw [renamed, if_pos hdeep, hr.nameIn_eq hx]
      exact Reference.name?_toDefinition hs.name_ne_empty hslash

/--
**Canonicalizing settles all references**, unless a pointer leads into a definition whose name has a
slash: each of the result is found among its definitions, none of them loops, so that generating can
start from it, and doing it again changes nothing.
-/
theorem canonicalize_settles (h : canonicalize document = .ok output) :
    ((∀ r ∈ output.mentions, ∃ n, Reference.name? r = some n ∧ n ∈ Assoc.keys output) ↔
      document.PlainOwners) ∧
    (document.PlainOwners →
      (∀ r ∈ output.mentions, ∃ n c, Reference.name? r = some n ∧ output.lookup n = some c ∧
        (Registry.ofDefinitions output).lookup r = .ok c) ∧
      output.Canonical ∧ output.LoopFree ∧ canonicalize output = .ok output) := by
  have hiff := named_iff_plainOwners h
  obtain ⟨-, -, -, -, -, hcheck⟩ := canonicalize_ok h
  refine ⟨hiff, fun hplain => ⟨fun r hm => ?_, fun name c hget t ht r href => ?_,
    Definitions.loopFree_of_checkLoops hcheck, canonicalize_of_named hcheck (hiff.mpr hplain)⟩⟩
  · obtain ⟨n, hn, hkey⟩ := hiff.mpr hplain r hm
    obtain ⟨c, hc⟩ := Option.isSome_iff_exists.mp (Assoc.has_iff_mem_keys.mpr hkey)
    exact ⟨n, c, hn, hc, Registry.lookup_of_name? hn hc⟩
  · have hm := Definitions.mem_mentions_of_lookup hget (Schema.mem_mentions.mpr ⟨t, ht, href⟩)
    obtain ⟨n, hn, hkey⟩ := hiff.mpr hplain r hm
    exact ⟨n, hn, Assoc.has_iff_mem_keys.mpr hkey⟩

end

theorem bills_settled : ∃ output, canonicalize bills = .ok output ∧ bills.PlainOwners ∧
    "#/definitions/OrderSeller1" ∈ output.mentions ∧
    (∀ r ∈ output.mentions, ∃ n c, Reference.name? r = some n ∧ output.lookup n = some c ∧
      (Registry.ofDefinitions output).lookup r = .ok c) ∧
    output.Canonical ∧ output.LoopFree ∧ canonicalize output = .ok output := by
  obtain ⟨output, hok, hcheck⟩ := exists_ok_of_any (e := canonicalize bills)
    (p := fun output => output.mentions.contains "#/definitions/OrderSeller1" &&
      output.mentions.all fun r => (Reference.name? r).any (Assoc.has output))
    (by decide +kernel)
  rw [Bool.and_eq_true] at hcheck
  obtain ⟨hiff, hsettled⟩ := canonicalize_settles hok
  have hplain := hiff.mp fun r hm => by
    obtain ⟨n, hn, hhas⟩ := (Option.any_eq_true _ _).mp (List.all_eq_true.mp hcheck.2 r hm)
    exact ⟨n, hn, Assoc.has_iff_mem_keys.mp hhas⟩
  exact ⟨output, hok, hplain, List.contains_iff_mem.mp hcheck.1, hsettled hplain⟩

/-- A definition whose name has a slash, and a pointer into it, with the slash escaped. -/
def fractions : Definitions := [
  ("half/whole", { types := ["object"], properties := [("name", .typed "string")] }),
  ("Sum", { types := ["object"], properties := [
    ("name", { reference := some "#/definitions/half~1whole/properties/name" })] })]

theorem ne_ok_of_toOption {ε α : Type} {e : Except ε α} (h : e.toOption.isNone = true) (a : α) :
    e ≠ .ok a := by
  rintro rfl
  simp [Except.toOption] at h

/-- The slash is not escaped again: the reference that is made names nothing. -/
theorem fractions_unsettled : ∃ output r, canonicalize fractions = .ok output ∧
    r ∈ output.mentions ∧ Reference.name? r = none ∧
    (∀ c, (Registry.ofDefinitions output).lookup r ≠ .ok c) ∧
    ∀ again, canonicalize output ≠ .ok again := by
  obtain ⟨output, hok, hcheck⟩ := exists_ok_of_any (e := canonicalize fractions)
    (p := fun output => output.mentions.contains "#/definitions/half/wholeName" &&
      ((Registry.ofDefinitions output).lookup "#/definitions/half/wholeName").toOption.isNone &&
      (canonicalize output).toOption.isNone)
    (by decide +kernel)
  rw [Bool.and_eq_true, Bool.and_eq_true] at hcheck
  exact ⟨output, _, hok, List.contains_iff_mem.mp hcheck.1.1, by decide +kernel,
    ne_ok_of_toOption hcheck.1.2, ne_ok_of_toOption hcheck.2⟩

end Canonical

/-! ## Documents made ready -/

namespace Run

variable {tr : Text.Transliteration}
variable {document : Swagger} {options : Options} {r : Run} {name : String} {c : Schema}

/-- A run is that of the canonical definitions, and its dependencies are those between them. -/
theorem prepare_ok (h : prepare document options = .ok r) :
    canonicalize document.definitions = .ok r.definitions ∧
      r.dependencies = .ofDefinitions r.definitions := by
  obtain ⟨output, hcanonical, heq⟩ := bind_eq_ok.mp h
  obtain rfl := Except.ok.inj heq
  exact ⟨mapError_ok hcanonical, rfl⟩

/-- What a document made ready names, it defines. -/
theorem prepare_known (h : prepare document options = .ok r)
    (hget : r.definitions.lookup name = some c) :
    c.Known (fun n => (r.definitions.lookup n).isSome = true) unasked := by
  have hknown := Canonical.canonicalize_known (prepare_ok h).1 (Assoc.mem_of_lookup hget)
  exact hknown.mono fun _ hn => Assoc.has_iff_mem_keys.mpr hn

end Run

end KclModels

/-!
## How many definitions are made

Redirecting a definition that is pending may add to what is pending, so nothing about the queue says
that it is ever empty. But a copy has no references but those of the document, and by the time the
first copy is redirected all of these are on record. So no copy adds anything: the queue is emptied
in as many rounds as there are pointers, and there is one definition more for each of them.
-/

namespace KclModels

/-- The references of the definitions that name none, each once: those that copies are made for. -/
def Definitions.pointers (definitions : Definitions) : List String :=
  (definitions.mentions.filter fun r => (Reference.name? r).isNone).dedup

namespace Canonical

open Run (exists_ok_of_any)

variable {document output : Definitions} {st : Relocation} {xs : List Relocated} {r : String}

theorem mem_pointers :
    r ∈ document.pointers ↔ r ∈ document.mentions ∧ Reference.name? r = none := by
  rw [Definitions.pointers, List.mem_dedup, List.mem_filter, Option.isNone_iff_eq_none]

section

variable {tr : Text.Transliteration}

/-- **Each pointer is on record once, and nothing else is.** -/
theorem references_perm (hr : Records document st xs)
    (hall : ∀ r ∈ document.mentions, Settled document xs r) :
    (xs.map (·.reference)).Perm document.pointers := by
  refine (List.perm_ext_iff_of_nodup hr.references (List.nodup_dedup _)).mpr fun r => ?_
  rw [← Definitions.pointers, mem_pointers]
  constructor
  · intro hmem
    obtain ⟨x, hx, rfl⟩ := List.mem_map.mp hmem
    have hs := hr.sound x hx
    have hdeep : Reference.isLocal x.reference = true ∧ Reference.name? x.reference = none := by
      simpa [Reference.isDeep] using hs.deep
    exact ⟨hs.mentioned, hdeep.2⟩
  · rintro ⟨hm, hnone⟩
    rcases hall r hm with ⟨n, hn, -⟩ | ⟨-, x, hx, href⟩
    · rw [hnone] at hn
      exact absurd hn (by simp)
    · exact List.mem_map.mpr ⟨x, hx, href⟩

/-- What canonicalizing comes to once it is known how its two passes end. -/
theorem canonicalize_of_gives {redirected relocated : Definitions} {st' : Relocation}
    (hredirected : Redirect.Gives (redirectAll document document) (startOf document) redirected st)
    (hrelocated : Redirect.Gives (redirectPending document (Schema.propertiesSize document)) st
      relocated st') :
    canonicalize document =
      (fun _ => redirected ++ relocated) <$> checkLoops (redirected ++ relocated) := by
  unfold Redirect.Gives startOf at hredirected
  unfold Redirect.Gives at hrelocated
  unfold canonicalize
  simp only [hredirected, hrelocated, bind, Except.bind]
  cases checkLoops (redirected ++ relocated) <;> rfl

theorem canonicalize_of_error {e : ReferenceError}
    (h : (redirectAll document document).run (startOf document) = .error e) :
    canonicalize document = .error e := by
  unfold startOf at h
  unfold canonicalize
  simp only [h, bind, Except.bind]

/--
All definitions of the document are redirected, which gives `redirected` and leaves `st`; what is
pending then becomes `relocated`.
-/
structure Drained [Text.Transliteration] (document redirected : Definitions) (st : Relocation)
    (relocated : Definitions) : Prop where
  first : Redirect.Gives (redirectAll document document) (startOf document) redirected st
  /-- Each pointer of the document is relocated, and each once. -/
  moved : (Assoc.keys st.moved).Perm document.pointers
  /-- The queue is emptied in one round for each of them, and no round relocates anything. -/
  rounds : ∀ rounds made st', Drains document st rounds made st' ↔
    rounds = document.pointers.length ∧ made = relocated ∧ st' = { st with pending := [] }
  result : canonicalize document =
    (fun _ => redirected ++ relocated) <$> checkLoops (redirected ++ relocated)

/-- All definitions are redirected, or canonicalizing fails where that fails. -/
theorem drained_or_error (document : Definitions) :
    (∃ redirected st relocated, Drained document redirected st relocated) ∨
      ∃ e, (redirectAll document document).run (startOf document) = .error e ∧
        canonicalize document = .error e := by
  cases hrun : (redirectAll document document).run (startOf document) with
  | error e => exact .inr ⟨e, rfl, canonicalize_of_error hrun⟩
  | ok p =>
    obtain ⟨redirected, st⟩ := p
    have hgives : Redirect.Gives (redirectAll document document) (startOf document) redirected st :=
      hrun
    obtain ⟨xs, ⟨hr, ⟨new, heq, hpending⟩, hall⟩, -⟩ :=
      redirectProperties_ok document (records_start document) (fun _ hr => hr) hgives
    obtain rfl : xs = new := heq
    -- what is on record is what is pending: one entry for each pointer
    have hperm := references_perm hr hall
    have hlength : xs.length = document.pointers.length := by
      rw [← hperm.length_eq, List.length_map]
    have hdrains := drains_of_settled hall xs hr hpending fun _ hx => hx
    have hbound : xs.length ≤ Schema.propertiesSize document :=
      Nat.le_trans hr.length_le document.length_mentions_le
    refine .inl ⟨redirected, st, xs.map (Relocated.made xs), hgives, ?_, fun rounds made st' => ?_,
      canonicalize_of_gives hgives (hdrains.gives _ hbound)⟩
    · rw [hr.keys_moved]
      exact (List.reverse_perm _).trans hperm
    · rw [← hlength]
      constructor
      · exact fun h => h.unique hdrains
      · rintro ⟨rfl, rfl, rfl⟩
        exact hdrains

/-- The result has one definition more for each pointer. -/
theorem canonicalize_length (h : canonicalize document = .ok output) :
    output.length = document.length + document.pointers.length := by
  obtain ⟨st, xs, hr, hall, rfl, -⟩ := canonicalize_ok h
  have hperm := references_perm hr hall
  have hfirst : (Schema.mapPropertyReferences (renamed (nameIn xs)) document).length =
      document.length := by
    rw [Schema.mapPropertyReferences_eq, List.length_map]
  rw [List.length_append, List.length_map, hfirst, ← hperm.length_eq, List.length_map]

/--
**Canonicalizing comes to an end, with one definition more for each pointer.** The queue is emptied
in as many rounds as there are pointers, whatever they point at, and so is each search for a name that
is not in use; the result has the definitions of the document and one for each pointer, no two of
one name.
-/
theorem canonicalize_counts (document : Definitions) :
    ((∃ redirected st relocated, Drained document redirected st relocated) ∨
      ∃ e, (redirectAll document document).run (startOf document) = .error e ∧
        canonicalize document = .error e) ∧
    (∀ output, canonicalize document = .ok output →
      output.length = document.length + document.pointers.length ∧
      ((Assoc.keys document).Nodup → (Assoc.keys output).Nodup)) ∧
    ∀ (taken : List String) (base : String), ∃ i,
      freshName taken.contains taken.length base = numbered base i ∧ numbered base i ∉ taken ∧
        ∀ j < i, numbered base j ∈ taken := by
  refine ⟨drained_or_error document, fun output h => ?_, freshName_facts⟩
  exact ⟨canonicalize_length h, canonicalize_nodup h⟩

end

/--
Two parts of which each has the other in it, and one that has itself in it; one of the pointers
stands in two places.
-/
def knots : Definitions :=
  let part (name pointer : String) : Schema :=
    { types := ["object"], properties := [(name, { reference := some pointer })] }
  [("Left", { types := ["object"], properties := [
      ("hand", part "other" "#/definitions/Right/items")] }),
    ("Right", { types := ["array"], items := some (.single
      (part "other" "#/definitions/Left/properties/hand")) }),
    ("Self", { allOf := [part "again" "#/definitions/Self/allOf/0",
      part "hand" "#/definitions/Left/properties/hand", .referenceTo "Right"] })]

theorem knots_counted : knots.pointers.length = 3 ∧
    ∃ output, canonicalize knots = .ok output ∧ output.length = knots.length + 3 ∧
      (Assoc.keys output).Nodup := by
  have hpointers : knots.pointers.length = 3 := by decide +kernel
  obtain ⟨output, hok, -⟩ := exists_ok_of_any (e := canonicalize knots) (p := fun _ => true)
    (by decide +kernel)
  obtain ⟨hlength, hnodup⟩ := (canonicalize_counts knots).2.1 output hok
  exact ⟨hpointers, output, hok, hpointers ▸ hlength, hnodup (by decide +kernel)⟩

end Canonical

end KclModels
