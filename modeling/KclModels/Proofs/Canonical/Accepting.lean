import KclModels.Proofs.Canonical.Output
import KclModels.Proofs.Reference.Written
import KclModels.Text.AsciiTable

/-!
# References that are accepted

A pointer designates a schema if its tokens are `definitions`, the name of a definition, and the
tokens of steps that are there in the schema of the definition. Redirecting accepts every pointer with
such a path of at least one step, whatever was relocated before, and refuses any other as unresolved;
it just takes numbers with a plus sign or needless zeros too. A pointer without steps it takes for a
name, and a name is not read as a token but as it is written: so a definition whose name has a tilde
or a slash is not found by its pointer, and another one may be found in its place.
-/

namespace KclModels

/-! ## Plain numbers -/

/-- The numbers in the tokens of a path are in plain digits. -/
def PlainNumbers : List String → Prop
  | [] => True
  | "properties" :: _ :: rest => PlainNumbers rest
  | token :: rest =>
    (∀ i, Canonical.Numeral token i → token = toString i) ∧ PlainNumbers rest

namespace PlainNumbers

variable {token : String} {rest : List String} {i : Nat}

theorem of_cons (hkeyword : token ≠ "properties") (h : PlainNumbers (token :: rest)) :
    (∀ i, Canonical.Numeral token i → token = toString i) ∧ PlainNumbers rest := by
  rw [PlainNumbers] at h
  · exact h
  · rintro _ _ rfl
    exact absurd rfl hkeyword

theorem number (hi : Canonical.Numeral token i) (h : PlainNumbers (token :: rest)) :
    token = toString i ∧ PlainNumbers rest := by
  have hkeyword : token ≠ "properties" := by
    rintro rfl
    have hnone : Canonical.index? "properties" = none := by decide
    exact absurd (hnone.symm.trans hi.index?) (by simp)
  exact (h.of_cons hkeyword).imp_left fun hall => hall i hi

end PlainNumbers

/-! ## Hops -/

namespace Schema

/-- One step of a pointer, from a schema to a schema in it. -/
inductive Hop
  | property (name : String)
  | branch (i : Fin (twoPow 64))
  | item
  | place (i : Fin (twoPow 64))
  | value
  | extraItem

/-- What a pointer has for a step. -/
def Hop.tokens : Hop → List String
  | property name => ["properties", name]
  | branch i => ["allOf", toString i.val]
  | item => ["items"]
  | place i => ["items", toString i.val]
  | value => ["additionalProperties"]
  | extraItem => ["additionalItems"]

/-- The schema that a hop leads to, if it is there. -/
def hop? (s : Schema) : Hop → Option Schema
  | .property name => s.properties.lookup name
  | .branch i => s.allOf[i.val]?
  | .item =>
    match s.items with
    | some (.single c) => some c
    | _ => none
  | .place i =>
    match s.items with
    | some (.tuple places) => places[i.val]?
    | _ => none
  | .value => s.additionalProperties.bind Extra.schema?
  | .extraItem => s.additionalItems.bind Extra.schema?

/-- The schema that hops lead to, if each of them is there. -/
def walk (s : Schema) (hops : List Hop) : Option Schema := hops.foldlM hop? s

variable {s c t : Schema} {hop : Hop} {hops : List Hop} {tokens : List String}

theorem walk_cons (hc : s.hop? hop = some c) (h : c.walk hops = some t) :
    s.walk (hop :: hops) = some t := by
  rw [walk, List.foldlM_cons, hc]
  exact h

theorem At.step (hc : s.hop? hop = some c) (h : c.At tokens t) : s.At (hop.tokens ++ tokens) t := by
  cases hop with
  | property name => exact .property hc h
  | branch i => exact .branch (Canonical.numeral_toString i.isLt) hc h
  | item =>
    simp only [hop?] at hc
    split at hc
    · rename_i c' hitems
      exact .item (Option.some.inj hc ▸ hitems) h
    · exact absurd hc (by simp)
  | place i =>
    simp only [hop?] at hc
    split at hc
    · rename_i places hitems
      exact .place hitems (Canonical.numeral_toString i.isLt) hc h
    · exact absurd hc (by simp)
  | value => exact .value (schema_of_bind hc) h
  | extraItem => exact .extraItem (schema_of_bind hc) h

/-- Where hops lead, their tokens do. -/
theorem at_of_walk (h : s.walk hops = some t) : s.At (hops.flatMap Hop.tokens) t := by
  induction hops generalizing s with
  | nil => exact Option.some.inj h ▸ .here s
  | cons hop hops ih =>
    rw [walk, List.foldlM_cons] at h
    obtain ⟨c, hc, h⟩ := Option.bind_eq_some_iff.mp h
    rw [List.flatMap_cons]
    exact .step hc (ih h)

/-- Where tokens with plain numbers lead, hops do. -/
theorem At.exists_walk (h : s.At tokens t) (hplain : PlainNumbers tokens) :
    ∃ hops, tokens = List.flatMap Hop.tokens hops ∧ s.walk hops = some t := by
  induction h with
  | here s => exact ⟨[], rfl, rfl⟩
  | property hc _ ih =>
    obtain ⟨hops, rfl, hwalk⟩ := ih hplain
    exact ⟨.property _ :: hops, rfl, walk_cons hc hwalk⟩
  | branch hi hc _ ih =>
    -- a plain number is the only spelling of its index, so the hop spells the same token
    obtain ⟨rfl, hrest⟩ := PlainNumbers.number hi hplain.2
    obtain ⟨hops, rfl, hwalk⟩ := ih hrest
    exact ⟨.branch ⟨_, hi.lt⟩ :: hops, rfl, walk_cons hc hwalk⟩
  | item hitems _ ih =>
    obtain ⟨hops, rfl, hwalk⟩ := ih hplain.2
    exact ⟨.item :: hops, rfl, walk_cons (by rw [hop?, hitems]) hwalk⟩
  | place hitems hi hc _ ih =>
    obtain ⟨rfl, hrest⟩ := PlainNumbers.number hi hplain.2
    obtain ⟨hops, rfl, hwalk⟩ := ih hrest
    refine ⟨.place ⟨_, hi.lt⟩ :: hops, rfl, walk_cons ?_ hwalk⟩
    rw [hop?, hitems]
    exact hc
  | value hvalue _ ih =>
    obtain ⟨hops, rfl, hwalk⟩ := ih hplain.2
    exact ⟨.value :: hops, rfl, walk_cons (by rw [hop?, hvalue]; rfl) hwalk⟩
  | extraItem hvalue _ ih =>
    obtain ⟨hops, rfl, hwalk⟩ := ih hplain.2
    exact ⟨.extraItem :: hops, rfl, walk_cons (by rw [hop?, hvalue]; rfl) hwalk⟩

end Schema

/-! ## Pointers that lead to a schema -/

namespace Definitions

variable {document : Definitions} {tokens : List String}

/-- The tokens designate a schema: a definition, or what hops from it lead to. -/
def Designates (document : Definitions) (tokens : List String) : Prop :=
  ∃ owner hops s t, tokens = "definitions" :: owner :: List.flatMap Schema.Hop.tokens hops ∧
    document.lookup owner = some s ∧ s.walk hops = some t

/-- The tokens of a pointer that redirecting accepts. -/
inductive Accepts (document : Definitions) : List String → Prop
  /-- The name counts as it is written. -/
  | name {owner : String} :
      Assoc.has document (Reference.escape owner) = true → Accepts document ["definitions", owner]
  | path {owner : String} {path : List String} {s t : Schema} :
      path ≠ [] → document.lookup owner = some s → s.At path t →
      Accepts document ("definitions" :: owner :: path)

/-- A lone name is written as it is, and numbers are in plain digits. -/
structure Straight (tokens : List String) : Prop where
  name : ∀ owner, tokens = ["definitions", owner] → Reference.escape owner = owner
  numbers : ∀ owner path, tokens = "definitions" :: owner :: path → PlainNumbers path

/-- Written straight, the tokens that are accepted are those that designate a schema. -/
theorem accepts_iff_designates (h : Straight tokens) :
    document.Accepts tokens ↔ document.Designates tokens := by
  constructor
  · rintro (⟨hhas⟩ | ⟨hne, hs, hat⟩)
    · rw [h.name _ rfl] at hhas
      obtain ⟨s, hs⟩ := Option.isSome_iff_exists.mp hhas
      exact ⟨_, [], s, s, rfl, hs, rfl⟩
    · obtain ⟨hops, rfl, hwalk⟩ := hat.exists_walk (h.numbers _ _ rfl)
      exact ⟨_, hops, _, _, rfl, hs, hwalk⟩
  · rintro ⟨owner, hops, s, t, rfl, hs, hwalk⟩
    by_cases hpath : hops.flatMap Schema.Hop.tokens = []
    · rw [hpath]
      refine .name ?_
      rw [h.name owner (by rw [hpath]), Assoc.has, hs]
      rfl
    · exact .path hpath hs (Schema.at_of_walk hwalk)

end Definitions

namespace Canonical

variable {document : Definitions} {st st' : Relocation} {reference r : String}
  {tokens : List String} {t : Schema}

/-! ## What was relocated -/

/-- The states that redirecting goes through from the start, one reference after the other. -/
inductive Relocation.Reached [Text.Transliteration] (document : Definitions) : Relocation → Prop
  | start : Reached document { taken := Assoc.keys document }
  | redirect {st st' : Relocation} {reference r : String} : Reached document st →
      Redirect.Gives (redirectReference document reference) st r st' → Reached document st'
  | pending {st : Relocation} (p : List (String × Schema)) :
      Reached document st → Reached document { st with pending := p }

section

variable {tr : Text.Transliteration}

/-- Relocating ends well exactly where the tokens lead to a schema, and puts it on record. -/
theorem relocate_cases (document : Definitions) (hlocal : Reference.isLocal reference = true)
    (st : Relocation) :
    (∃ t name st', document.PointsAt reference t ∧
        st'.moved = (reference, name) :: st.moved ∧
        Redirect.Gives (relocate document reference) st (Reference.toDefinition name) st') ∨
      (∀ t, ¬document.PointsAt reference t) ∧
        (relocate document reference).run st = .error (.unresolved reference) := by
  unfold relocate
  split
  · rename_i owner first path htokens
    cases htarget : (document.lookup owner).bind (follow · (first :: path)) with
    | none =>
      refine .inr ⟨fun t hpoints => ?_, rfl⟩
      -- tokens are read in one way only, so pointing at a schema means following here
      obtain ⟨owner', path', s, htokens', -, hs, hat⟩ := hpoints.tokens
      rw [htokens, List.cons.injEq, List.cons.injEq] at htokens'
      obtain ⟨-, rfl, rfl⟩ := htokens'
      rw [hs, Option.bind_some, hat.follow] at htarget
      exact absurd htarget (by simp)
    | some t =>
      obtain ⟨s, hs, hfollow⟩ := Option.bind_eq_some_iff.mp htarget
      have hpoints : document.PointsAt reference t := ⟨owner, first :: path, s,
        Reference.reads_iff.mpr ⟨hlocal, htokens⟩, List.cons_ne_nil _ _, hs,
        Schema.follow_eq_some_iff.mp hfollow⟩
      exact .inl ⟨t, _, _, hpoints, rfl, rfl⟩
  · rename_i hnone
    refine .inr ⟨fun t hpoints => ?_, rfl⟩
    obtain ⟨owner, path, s, htokens, hne, -, -⟩ := hpoints.tokens
    obtain ⟨first, rest, rfl⟩ := List.exists_cons_of_ne_nil hne
    exact hnone _ _ _ htokens

theorem run_of_name (hlocal : Reference.isLocal reference = true) {name : String}
    (hname : Reference.name? reference = some name) :
    (redirectReference document reference).run st =
      if Assoc.has document name then .ok (reference, st) else .error (.unresolved reference) := by
  unfold redirectReference
  rw [if_neg (by simp [hlocal]), hname]
  simp only
  split <;> rfl

theorem run_of_pointer (hlocal : Reference.isLocal reference = true)
    (hname : Reference.name? reference = none) :
    (redirectReference document reference).run st =
      match st.moved.lookup reference with
      | some name => .ok (Reference.toDefinition name, st)
      | none => (relocate document reference).run st := by
  unfold redirectReference
  rw [if_neg (by simp [hlocal]), hname]
  show (match st.moved.lookup reference with
    | some name => pure (Reference.toDefinition name)
    | none => relocate document reference : Redirect String).run st = _
  split <;> rfl

/-- Redirecting a reference adds to the record at most the reference, if it leads to a schema. -/
theorem moved_of_gives (h : Redirect.Gives (redirectReference document reference) st r st') :
    st' = st ∨
      ∃ t name, document.PointsAt reference t ∧ st'.moved = (reference, name) :: st.moved := by
  cases hlocal : Reference.isLocal reference with
  | false =>
    unfold redirectReference at h
    rw [if_pos (by simp [hlocal])] at h
    obtain ⟨_, _, h, -⟩ := gives_bind.mp h
    exact (gives_throw.mp h).elim
  | true =>
    cases hname : Reference.name? reference with
    | some name =>
      rw [Redirect.Gives, run_of_name hlocal hname] at h
      -- the definition is there, or it fails
      split at h
      · exact .inl (Prod.mk.inj (Except.ok.inj h)).2.symm
      · exact absurd h (by simp)
    | none =>
      rw [Redirect.Gives, run_of_pointer hlocal hname] at h
      split at h
      · exact .inl (Prod.mk.inj (Except.ok.inj h)).2.symm
      · rcases relocate_cases document hlocal st with ⟨t, name, st₁, ht, hmoved, hst₁⟩ | ⟨-, herr⟩
        · obtain ⟨-, rfl⟩ := Prod.mk.inj (Except.ok.inj (h.symm.trans hst₁))
          exact .inr ⟨t, name, ht, hmoved⟩
        · exact absurd (h.symm.trans herr) (by simp)

/-- Only pointers that lead to a schema are on record. -/
theorem Relocation.Reached.pointsAt (h : Reached document st) :
    ∀ x ∈ st.moved, ∃ t, document.PointsAt x.1 t := by
  induction h with
  | start => exact fun _ hx => absurd hx List.not_mem_nil
  | redirect _ hgives ih =>
    rcases moved_of_gives hgives with rfl | ⟨t, name, ht, hmoved⟩
    · exact ih
    · rw [hmoved]
      exact List.forall_mem_cons.mpr ⟨⟨t, ht⟩, ih⟩
  | pending _ _ ih => exact ih

/-! ## Acceptance -/

theorem pointsAt_pointer (h : ∀ token ∈ tokens, token ≠ "") :
    document.PointsAt (Reference.pointer tokens) t ↔
      ∃ owner path s, tokens = "definitions" :: owner :: path ∧ path ≠ [] ∧
        document.lookup owner = some s ∧ s.At path t := by
  simp only [Definitions.PointsAt, Reference.reads_pointer h]

/-- A pointer that is taken for a name is accepted if a definition has the name. -/
theorem accepts_iff_has (h : ∀ token ∈ tokens, token ≠ "") {name : String}
    (hname : Reference.name? (Reference.pointer tokens) = some name) :
    document.Accepts tokens ↔ Assoc.has document name = true := by
  obtain ⟨owner, rfl, rfl⟩ := (Reference.name?_pointer h).mp hname
  constructor
  · rintro (hhas | ⟨hne, -, -⟩)
    · exact hhas
    · exact absurd rfl hne
  · exact .name

/-- Any other pointer is accepted if it leads to a schema. -/
theorem accepts_iff_pointsAt (h : ∀ token ∈ tokens, token ≠ "")
    (hname : Reference.name? (Reference.pointer tokens) = none) :
    document.Accepts tokens ↔ ∃ t, document.PointsAt (Reference.pointer tokens) t := by
  simp only [pointsAt_pointer h]
  constructor
  · rintro (⟨-⟩ | ⟨hne, hs, hat⟩)
    · rw [(Reference.name?_pointer h).mpr ⟨_, rfl, rfl⟩] at hname
      exact absurd hname (by simp)
    · exact ⟨_, _, _, _, rfl, hne, hs, hat⟩
  · rintro ⟨t, owner, path, s, rfl, hne, hs, hat⟩
    exact .path hne hs hat

/-- Redirecting a pointer ends well if it is accepted, and otherwise it is unresolved. -/
theorem redirectReference_cases (hst : Relocation.Reached document st)
    (h : ∀ token ∈ tokens, token ≠ "") :
    (document.Accepts tokens ∧
        ∃ r st', Redirect.Gives (redirectReference document (Reference.pointer tokens)) st r st') ∨
      ¬document.Accepts tokens ∧
        (redirectReference document (Reference.pointer tokens)).run st =
          .error (.unresolved (Reference.pointer tokens)) := by
  have hlocal := Reference.isLocal_pointer tokens
  unfold Redirect.Gives
  cases hname : Reference.name? (Reference.pointer tokens) with
  | some name =>
    rw [accepts_iff_has h hname, run_of_name hlocal hname]
    by_cases hhas : Assoc.has document name = true
    · rw [if_pos hhas]
      exact .inl ⟨hhas, _, _, rfl⟩
    · rw [if_neg hhas]
      exact .inr ⟨hhas, rfl⟩
  | none =>
    rw [accepts_iff_pointsAt h hname, run_of_pointer hlocal hname]
    -- what was relocated before is known to point at a schema
    cases hmoved : st.moved.lookup (Reference.pointer tokens) with
    | some name =>
      have hpoints := hst.pointsAt _ (Assoc.mem_of_lookup hmoved)
      exact .inl ⟨hpoints, _, _, rfl⟩
    | none =>
      rcases relocate_cases document hlocal st with
        ⟨t, name, st₁, ht, -, hgives⟩ | ⟨hnone, herr⟩
      · exact .inl ⟨⟨t, ht⟩, _, _, hgives⟩
      · exact .inr ⟨fun ⟨t, ht⟩ => hnone t ht, herr⟩

/--
**Main statement.** Whatever was relocated before, redirecting a pointer ends well just if its tokens
are accepted, and fails with the pointer as unresolved if not. If a lone name needs no escapes and
numbers are in plain digits, the tokens that are accepted are those that designate a schema.
-/
theorem redirectReference_pointer (hst : Relocation.Reached document st)
    (h : ∀ token ∈ tokens, token ≠ "") :
    ((∃ r st', Redirect.Gives (redirectReference document (Reference.pointer tokens)) st r st') ↔
        document.Accepts tokens) ∧
      (¬document.Accepts tokens →
        (redirectReference document (Reference.pointer tokens)).run st =
          .error (.unresolved (Reference.pointer tokens))) ∧
      (Definitions.Straight tokens → (document.Accepts tokens ↔ document.Designates tokens)) := by
  refine ⟨?_, ?_, Definitions.accepts_iff_designates⟩
  · rcases redirectReference_cases hst h with ⟨haccepts, hgives⟩ | ⟨hnot, herr⟩
    · exact iff_of_true hgives haccepts
    · refine iff_of_false (fun ⟨r, st', hgives⟩ => ?_) hnot
      exact absurd (hgives.symm.trans herr) (by simp)
  · intro hnot
    rcases redirectReference_cases hst h with ⟨haccepts, -⟩ | ⟨-, herr⟩
    · exact absurd haccepts hnot
    · exact herr

end

/-- In one document a pointer below the definition `a/b` is accepted. -/
theorem slashed_property_accepted :
    let slashed : Definitions := [("a/b", { properties := [("c", {})] })]
    let tokens := ["definitions", "a/b", "properties", "c"]
    Definitions.Straight tokens ∧ slashed.Designates tokens ∧
      ∃ r st', Redirect.Gives (redirectReference slashed (Reference.pointer tokens))
        { taken := Assoc.keys slashed } r st' := by
  intro slashed tokens
  have hstraight : Definitions.Straight tokens := by
    refine ⟨fun owner heq => absurd heq (by simp [tokens]), fun owner path heq => ?_⟩
    obtain ⟨-, rfl⟩ : "a/b" = owner ∧ ["properties", "c"] = path := by simpa [tokens] using heq
    trivial
  have hdesignates : slashed.Designates tokens :=
    ⟨"a/b", [.property "c"], { properties := [("c", {})] }, {}, rfl, rfl, rfl⟩
  have hstart : Relocation.Reached slashed { taken := Assoc.keys slashed } := .start
  have hne : ∀ token ∈ tokens, token ≠ "" := by decide
  obtain ⟨haccepts, -, hiff⟩ := redirectReference_pointer hstart hne
  exact ⟨hstraight, hdesignates, haccepts.mpr ((hiff hstraight).mpr hdesignates)⟩

/--
The pointer to the definition `a/b` designates it and is unresolved; the same pointer is taken for
the name of a definition `a~1b`, which it does not designate.
-/
theorem slashed_definition_unresolved :
    let slashed : Definitions := [("a/b", {})]
    let tilded : Definitions := [("a~1b", {})]
    let tokens := ["definitions", "a/b"]
    (slashed.Designates tokens ∧
      (redirectReference slashed (Reference.pointer tokens)).run { taken := Assoc.keys slashed } =
        .error (.unresolved "#/definitions/a~1b")) ∧
      ¬tilded.Designates tokens ∧
      ∃ r st', Redirect.Gives (redirectReference tilded (Reference.pointer tokens))
        { taken := Assoc.keys tilded } r st' := by
  refine ⟨⟨⟨"a/b", [], {}, {}, rfl, rfl, rfl⟩, by rfl⟩, ?_, "#/definitions/a~1b", _, by rfl⟩
  rintro ⟨owner, hops, s, t, heq, hs, -⟩
  obtain ⟨rfl, -⟩ : "a/b" = owner ∧ _ := by simpa using heq
  have hnone : List.lookup "a/b" [("a~1b", ({} : Schema))] = none := rfl
  exact absurd (hnone.symm.trans hs) (by simp)

end Canonical

end KclModels
