import KclModels.Canonical
import KclModels.Proofs.Assoc.Sorted
import KclModels.Proofs.Reference.Written
import KclModels.Proofs.Registry.Growth
import KclModels.Proofs.Schema.References

/-!
# What pointers lead to

A pointer into a document names a definition and then, token by token, a keyword and perhaps a name
or a number. Each step goes from a schema to a schema in it, so a pointer leads to a schema that
stands somewhere in the definition it starts from. What a pointer says is told by how it is written
(`Reference.Reads`, `Canonical.Numeral`), and following it is shown to agree.
-/

namespace KclModels

/-- Whether a reference points into the document, and not just at a definition. -/
def Reference.isDeep (reference : String) : Bool :=
  isLocal reference && (name? reference).isNone

/-! ## Numbers -/

namespace Scalar

variable {c : Char} {cs : List Char} {d n : Nat}

/-- A decimal digit counts what it is. -/
theorem digitIn?_of_isDigit (h : c.isDigit = true) : digitIn? 10 c = some (c.toNat - '0'.toNat) := by
  have hlt : c.toNat - '0'.toNat < 10 := by
    have hle : c.toNat ≤ 57 := (Char.isDigit_iff_toNat.mp h).2
    have hzero : '0'.toNat = 48 := rfl
    omega
  rw [digitIn?, if_pos h]
  exact if_pos hlt

/-- No letter is a decimal digit: the letters count from ten. -/
theorem isDigit_of_digitIn? (h : digitIn? 10 c = some d) : c.isDigit = true := by
  by_contra hnot
  have hlarge : digitIn? 10 c = none := by
    rw [digitIn?, if_neg hnot]
    refine if_neg (Nat.not_lt.mpr ?_)
    split
    · exact Nat.le_add_left _ _
    · split
      · exact Nat.le_add_left _ _
      · exact Nat.le_refl 10
  exact absurd (hlarge.symm.trans h) (by simp)

theorem foldlM_digits (h : ∀ c ∈ cs, c.isDigit = true) (n : Nat) :
    cs.foldlM (fun n c => (digitIn? 10 c).map (10 * n + ·)) n = some (Nat.ofDigitChars 10 cs n) := by
  induction cs generalizing n with
  | nil => rfl
  | cons c cs ih =>
    obtain ⟨hc, hcs⟩ := List.forall_mem_cons.mp h
    rw [List.foldlM_cons, digitIn?_of_isDigit hc]
    exact ih hcs _

theorem isDigit_of_foldlM {m : Nat}
    (h : cs.foldlM (fun n c => (digitIn? 10 c).map (10 * n + ·)) n = some m) :
    ∀ c ∈ cs, c.isDigit = true := by
  induction cs generalizing n with
  | nil => exact fun c hc => absurd hc List.not_mem_nil
  | cons c cs ih =>
    rw [List.foldlM_cons] at h
    obtain ⟨n', hn', h⟩ := Option.bind_eq_some_iff.mp h
    obtain ⟨d, hd, -⟩ := Option.map_eq_some_iff.mp hn'
    exact List.forall_mem_cons.mpr ⟨isDigit_of_digitIn? hd, ih h⟩

theorem natIn?_eq_some_iff : natIn? 10 cs = some n ↔
    cs ≠ [] ∧ (∀ c ∈ cs, c.isDigit = true) ∧ Nat.ofDigitChars 10 cs 0 = n := by
  unfold natIn?
  by_cases hnil : cs = []
  · simp [hnil]
  · rw [if_neg (by simpa using hnil)]
    constructor
    · intro h
      have hdigits := isDigit_of_foldlM h
      exact ⟨hnil, hdigits, Option.some.inj ((foldlM_digits hdigits 0).symm.trans h)⟩
    · rintro ⟨-, hdigits, rfl⟩
      exact foldlM_digits hdigits 0

end Scalar

namespace Canonical

variable {token : String} {i : Nat}

/--
`Numeral token i`: the token is the number `i` in decimal digits, perhaps with a plus sign or
needless zeros before them, and the number fits a machine word.
-/
structure Numeral (token : String) (i : Nat) : Prop where
  digits : ∃ digits, (token.toList = digits ∨ token.toList = '+' :: digits) ∧ digits ≠ [] ∧
    (∀ c ∈ digits, c.isDigit = true) ∧ Nat.ofDigitChars 10 digits 0 = i
  lt : i < twoPow 64

theorem numeral_of_index? (h : index? token = some i) : Numeral token i := by
  unfold index? at h
  dsimp only at h
  split at h
  · rename_i n hn
    split at h
    · rename_i hlt
      obtain rfl := Option.some.inj h
      obtain ⟨hne, hall, hvalue⟩ := Scalar.natIn?_eq_some_iff.mp hn
      refine ⟨⟨_, ?_, hne, hall, hvalue⟩, hlt⟩
      -- what is read as digits is what follows the plus sign, if there is one
      split
      · rename_i hplus
        exact .inr hplus
      · exact .inl rfl
    · exact absurd h (by simp)
  · exact absurd h (by simp)

theorem Numeral.index? (h : Numeral token i) : index? token = some i := by
  obtain ⟨⟨digits, htoken, hne, hall, hvalue⟩, hlt⟩ := h
  have hread : Scalar.natIn? 10 digits = some i := Scalar.natIn?_eq_some_iff.mpr ⟨hne, hall, hvalue⟩
  have hplus : ∀ rest, digits ≠ '+' :: rest := by
    rintro rest rfl
    exact absurd (hall '+' List.mem_cons_self) (by decide)
  unfold Canonical.index?
  rcases htoken with htoken | htoken
  · simp only [htoken]
    split
    · rename_i heq
      obtain rfl := Option.some.inj (hread.symm.trans heq)
      exact if_pos hlt
    · rename_i heq
      exact absurd (hread.symm.trans heq) (by simp)
  · simp only [htoken, hread]
    exact if_pos hlt

/-- **Numbers are read as they are written.** -/
theorem index?_eq_some_iff : index? token = some i ↔ Numeral token i :=
  ⟨numeral_of_index?, Numeral.index?⟩

theorem numeral_toString (h : i < twoPow 64) : Numeral (toString i) i := by
  refine ⟨⟨Nat.toDigits 10 i, .inl ?_, Nat.toDigits_ne_nil, fun c hc => ?_, ?_⟩, h⟩
  · rw [Nat.toString_eq_repr, Nat.toList_repr]
  · exact Nat.isDigit_of_mem_toDigits (by decide) (by decide) hc
  · exact Nat.ofDigitChars_ten_toDigits

example : index? "+00" = some 0 := by decide

end Canonical

/-! ## Paths -/

namespace Schema

/-- `s.At tokens t`: the tokens lead from the schema `s` to the schema `t`. -/
inductive At : Schema → List String → Schema → Prop
  | here (s : Schema) : At s [] s
  | property {s c t : Schema} {name : String} {rest : List String} :
      s.properties.lookup name = some c → At c rest t → At s ("properties" :: name :: rest) t
  | branch {s c t : Schema} {token : String} {i : Nat} {rest : List String} :
      Canonical.Numeral token i → s.allOf[i]? = some c → At c rest t →
      At s ("allOf" :: token :: rest) t
  | item {s c t : Schema} {rest : List String} :
      s.items = some (.single c) → At c rest t → At s ("items" :: rest) t
  | place {s c t : Schema} {places : List Schema} {token : String} {i : Nat} {rest : List String} :
      s.items = some (.tuple places) → Canonical.Numeral token i → places[i]? = some c →
      At c rest t → At s ("items" :: token :: rest) t
  | value {s c t : Schema} {rest : List String} :
      s.additionalProperties = some (.schema c) → At c rest t →
      At s ("additionalProperties" :: rest) t
  | extraItem {s c t : Schema} {rest : List String} :
      s.additionalItems = some (.schema c) → At c rest t → At s ("additionalItems" :: rest) t

variable {s t : Schema} {tokens : List String}

theorem At.within (h : s.At tokens t) : t.Within s := by
  induction h with
  | here s => exact .refl s
  | property hc _ ih => exact .child (property_mem_children (Assoc.mem_of_lookup hc)) ih
  | branch _ hc _ ih => exact .child (branch_mem_children (List.mem_of_getElem? hc)) ih
  | item hc _ ih => exact .child (item_mem_children hc) ih
  | place hp _ hc _ ih => exact .child (place_mem_children hp (List.mem_of_getElem? hc)) ih
  | value hc _ ih => exact .child (value_mem_children hc) ih
  | extraItem hc _ ih => exact .child (extraItem_mem_children hc) ih

/-- The schema that a keyword holds for what is beyond the declared parts. -/
theorem schema_of_bind {extra : Option (Extra Schema)} {c : Schema}
    (h : extra.bind Extra.schema? = some c) : extra = some (.schema c) := by
  match extra with
  | none => simp at h
  | some (.flag _) => simp [Extra.schema?] at h
  | some (.schema d) => rw [← Option.some.inj h]

theorem at_of_follow : ∀ (tokens : List String) (s : Schema),
    Canonical.follow s tokens = some t → s.At tokens t := by
  intro tokens s h
  fun_induction Canonical.follow s tokens with
  | case1 s => exact Option.some.inj h ▸ .here s
  | case2 s rest item hitem ih => exact .item hitem (ih h)
  | case3 s places token rest hplaces ih =>
    obtain ⟨i, hi, h⟩ := Option.bind_eq_some_iff.mp h
    obtain ⟨c, hc, h⟩ := Option.bind_eq_some_iff.mp h
    exact .place hplaces (Canonical.index?_eq_some_iff.mp hi) hc (ih c h)
  | case4 => simp at h
  | case5 s name rest ih =>
    obtain ⟨c, hc, h⟩ := Option.bind_eq_some_iff.mp h
    exact .property hc (ih c h)
  | case6 s token rest ih =>
    obtain ⟨i, hi, h⟩ := Option.bind_eq_some_iff.mp h
    obtain ⟨c, hc, h⟩ := Option.bind_eq_some_iff.mp h
    exact .branch (Canonical.index?_eq_some_iff.mp hi) hc (ih c h)
  | case7 s rest ih =>
    obtain ⟨c, hc, h⟩ := Option.bind_eq_some_iff.mp h
    exact .value (schema_of_bind hc) (ih c h)
  | case8 s rest ih =>
    obtain ⟨c, hc, h⟩ := Option.bind_eq_some_iff.mp h
    exact .extraItem (schema_of_bind hc) (ih c h)
  | case9 => simp at h

theorem At.follow (h : s.At tokens t) : Canonical.follow s tokens = some t := by
  induction h with
  | here s => rw [Canonical.follow]
  | property hc _ ih => simpa [Canonical.follow, hc] using ih
  | branch hi hc _ ih => simpa [Canonical.follow, hi.index?, hc] using ih
  | item hc _ ih => simpa [Canonical.follow, hc] using ih
  | place hp hi hc _ ih => simpa [Canonical.follow, hp, hi.index?, hc] using ih
  | value hc _ ih => simpa [Canonical.follow, hc, Extra.schema?] using ih
  | extraItem hc _ ih => simpa [Canonical.follow, hc, Extra.schema?] using ih

/-- **Following tokens goes from schema to schema**, one keyword after the other. -/
theorem follow_eq_some_iff : Canonical.follow s tokens = some t ↔ s.At tokens t :=
  ⟨at_of_follow tokens s, At.follow⟩

end Schema

namespace Definitions

variable {definitions : Definitions} {reference : String} {t t' : Schema}

/-- The tokens of the reference lead through a definition to a schema in it. -/
def PointsAt (definitions : Definitions) (reference : String) (t : Schema) : Prop :=
  ∃ owner path s, Reference.Reads reference ("definitions" :: owner :: path) ∧ path ≠ [] ∧
    definitions.lookup owner = some s ∧ s.At path t

theorem PointsAt.tokens (h : definitions.PointsAt reference t) : ∃ owner path s,
    Reference.tokens reference = "definitions" :: owner :: path ∧ path ≠ [] ∧
      definitions.lookup owner = some s ∧ s.At path t := by
  obtain ⟨owner, path, s, hread, hrest⟩ := h
  exact ⟨owner, path, s, (Reference.reads_iff.mp hread).2, hrest⟩

theorem PointsAt.unique (h : definitions.PointsAt reference t)
    (h' : definitions.PointsAt reference t') : t = t' := by
  obtain ⟨owner, path, s, htokens, -, hs, ht⟩ := h.tokens
  obtain ⟨owner', path', s', htokens', -, hs', ht'⟩ := h'.tokens
  rw [htokens, List.cons.injEq, List.cons.injEq] at htokens'
  obtain ⟨-, rfl, rfl⟩ := htokens'
  obtain rfl := Option.some.inj (hs.symm.trans hs')
  exact Option.some.inj (ht.follow.symm.trans ht'.follow)

/-- What a reference points at brings no new references. -/
theorem PointsAt.mentions (h : definitions.PointsAt reference t) :
    ∀ r ∈ t.mentions, r ∈ definitions.mentions := by
  obtain ⟨owner, path, s, -, -, hs, ht⟩ := h
  exact fun r hr => mem_mentions_of_lookup hs (Schema.mem_mentions_of_within ht.within hr)

end Definitions

end KclModels

/-!
## Relocating what pointers lead to

While references are redirected, each deep pointer that is met for the first time is recorded: it
gets a name that is not in use, and the schema it leads to gets a definition under that name. The
record is only added to, so what a pointer became at one moment it is at every later one. Hence the
redirected schema is the schema with the names of the record in place of its deep pointers, whatever
was recorded since (`redirect_ok`); and once every pointer in a schema is on record, redirecting the
schema adds nothing (`redirect_of_settled`).
-/

namespace KclModels.Canonical

variable {tr : Text.Transliteration}
variable {α β : Type} {st st' : Relocation} {document : Definitions}

/-! ## Outcomes of steps -/

/-- The step ends well: started in `st` it gives `a` and leaves `st'`. -/
def Redirect.Gives (m : Redirect α) (st : Relocation) (a : α) (st' : Relocation) : Prop :=
  m.run st = .ok (a, st')

theorem gives_bind {m : Redirect α} {k : α → Redirect β} {b : β} :
    Redirect.Gives (m >>= k) st b st' ↔
      ∃ a st₁, Redirect.Gives m st a st₁ ∧ Redirect.Gives (k a) st₁ b st' := by
  unfold Redirect.Gives
  rw [StateT.run_bind]
  rcases hm : m.run st with e | ⟨a, st₁⟩
  · simp [bind, Except.bind]
  · constructor
    · exact fun h => ⟨a, st₁, rfl, h⟩
    · rintro ⟨a', st₁', heq, h⟩
      obtain ⟨rfl, rfl⟩ : a = a' ∧ st₁ = st₁' := by simpa using heq
      exact h

theorem gives_pure {a b : α} : Redirect.Gives (pure a) st b st' ↔ a = b ∧ st = st' := by
  show (Except.ok (a, st) : Except ReferenceError _) = .ok (b, st') ↔ _
  simp

theorem gives_map {m : Redirect α} {k : α → β} {b : β} :
    Redirect.Gives (k <$> m) st b st' ↔ ∃ a, Redirect.Gives m st a st' ∧ k a = b := by
  rw [map_eq_pure_bind, gives_bind]
  simp only [gives_pure]
  constructor
  · rintro ⟨a, _, hm, hk, rfl⟩
    exact ⟨a, hm, hk⟩
  · rintro ⟨a, hm, hk⟩
    exact ⟨a, st', hm, hk, rfl⟩

theorem gives_throw {e : ReferenceError} {a : α} :
    Redirect.Gives (throw e) st a st' ↔ False := by
  show (Except.error e : Except ReferenceError _) = .ok (a, st') ↔ _
  simp

theorem gives_get {a : Relocation} : Redirect.Gives get st a st' ↔ st = a ∧ st = st' := by
  show (Except.ok (st, st) : Except ReferenceError _) = .ok (a, st') ↔ _
  simp

theorem gives_set {a : Relocation} {u : PUnit} : Redirect.Gives (set a) st u st' ↔ a = st' := by
  show (Except.ok (u, a) : Except ReferenceError _) = .ok (u, st') ↔ _
  simp

/-! ## The record of what was relocated -/

/-- A deep pointer, with the name and the schema of the definition that was made for it. -/
structure Relocated where
  reference : String
  name : String
  target : Schema

namespace Relocated

/-- The definition that was made. -/
def entry (x : Relocated) : String × Schema := (x.name, x.target)

/-- What is true of a pointer of the document that was relocated. -/
structure Sound [Text.Transliteration] (document : Definitions) (x : Relocated) : Prop where
  deep : Reference.isDeep x.reference = true
  mentioned : x.reference ∈ document.mentions
  target : document.PointsAt x.reference x.target
  /-- The name is one of those numbered after the owner and what is chosen of the path. -/
  named : ∃ owner path i, Reference.tokens x.reference = "definitions" :: owner :: path ∧
    x.name = numbered (relocatedName owner path) i
  fresh : x.name ∉ Assoc.keys document

end Relocated

variable {xs ys zs new later : List Relocated} {refs refs' : List String} {r r' n : String}

/-- The state has all of the record `xs` and no more, whatever is still pending. -/
structure Records [Text.Transliteration] (document : Definitions) (st : Relocation)
    (xs : List Relocated) : Prop where
  moved : st.moved = (xs.map fun x => (x.reference, x.name)).reverse
  taken : st.taken = (xs.map (·.name)).reverse ++ Assoc.keys document
  references : (xs.map (·.reference)).Nodup
  names : (xs.map (·.name)).Nodup
  sound : ∀ x ∈ xs, x.Sound document

/-- A reference that names a definition, or a deep pointer that is on record. -/
def Settled (document : Definitions) (xs : List Relocated) (r : String) : Prop :=
  (∃ n, Reference.name? r = some n ∧ n ∈ Assoc.keys document) ∨
    (Reference.isDeep r = true ∧ ∃ x ∈ xs, x.reference = r)

/-- The name on record for a pointer. -/
def nameIn (xs : List Relocated) (r : String) : String :=
  ((xs.map fun x => (x.reference, x.name)).lookup r).getD r

/-- The reference to the definition made for a deep pointer; any other reference stays. -/
def renamed (m : String → String) (r : String) : String :=
  if Reference.isDeep r then Reference.toDefinition (m r) else r

theorem Settled.append (h : Settled document xs r) : Settled document (xs ++ later) r :=
  h.imp_right fun ⟨hdeep, x, hx, href⟩ => ⟨hdeep, x, List.mem_append_left _ hx, href⟩

theorem nameIn_append (h : ∃ x ∈ xs, x.reference = r) : nameIn (xs ++ later) r = nameIn xs r := by
  obtain ⟨x, hx, rfl⟩ := h
  have hkey : x.reference ∈ Assoc.keys (xs.map fun x => (x.reference, x.name)) :=
    List.mem_map.mpr ⟨(x.reference, x.name), List.mem_map_of_mem hx, rfl⟩
  obtain ⟨n, hn⟩ := Option.isSome_iff_exists.mp (Assoc.has_iff_mem_keys.mpr hkey)
  rw [nameIn, nameIn, List.map_append, List.lookup_append, hn, Option.some_or]

/-- What a settled reference becomes does not depend on what is recorded later. -/
theorem renamed_append (h : Settled document xs r) :
    renamed (nameIn (xs ++ later)) r = renamed (nameIn xs) r := by
  unfold renamed
  split
  · rename_i hdeep
    rcases h with ⟨n, hn, -⟩ | ⟨-, hx⟩
    · rw [Reference.isDeep, hn] at hdeep
      simp at hdeep
    · rw [nameIn_append hx]
  · rfl

theorem isDeep_of_name? (h : Reference.name? r = some n) : Reference.isDeep r = false := by
  rw [Reference.isDeep, h]
  simp

namespace Records

theorem keys_moved (h : Records document st xs) :
    Assoc.keys st.moved = (xs.map (·.reference)).reverse := by
  rw [Assoc.keys, h.moved, List.map_reverse, List.map_map]
  rfl

/-- A pointer is looked up as it is on record. -/
theorem lookup (h : Records document st xs) {x : Relocated} (hx : x ∈ xs) :
    st.moved.lookup x.reference = some x.name := by
  refine Assoc.lookup_of_mem ?_ ?_
  · rw [h.keys_moved]
    exact List.nodup_reverse.mpr h.references
  · rw [h.moved]
    exact List.mem_reverse.mpr (List.mem_map_of_mem hx)

theorem nameIn_eq (h : Records document st xs) {x : Relocated} (hx : x ∈ xs) :
    nameIn xs x.reference = x.name := by
  have hkeys : Assoc.keys (xs.map fun x => (x.reference, x.name)) = xs.map (·.reference) := by
    rw [Assoc.keys, List.map_map]
    rfl
  have hlookup : (xs.map fun x => (x.reference, x.name)).lookup x.reference = some x.name :=
    Assoc.lookup_of_mem (hkeys ▸ h.references) (List.mem_map.mpr ⟨x, hx, rfl⟩)
  rw [nameIn, hlookup, Option.getD_some]

theorem exists_of_lookup (h : Records document st xs) (hn : st.moved.lookup r = some n) :
    ∃ x ∈ xs, x.reference = r ∧ x.name = n := by
  have hmem := Assoc.mem_of_lookup hn
  rw [h.moved, List.mem_reverse] at hmem
  obtain ⟨x, hx, heq⟩ := List.mem_map.mp hmem
  exact ⟨x, hx, Prod.mk.inj heq⟩

theorem new_of_lookup (h : Records document st xs) (hn : st.moved.lookup r = none) :
    ∀ x ∈ xs, x.reference ≠ r := by
  rintro x hx rfl
  rw [h.lookup hx] at hn
  exact absurd hn (by simp)

/-- What is pending does not count. -/
theorem pending (h : Records document st xs) (p : List (String × Schema)) :
    Records document { st with pending := p } xs :=
  ⟨h.moved, h.taken, h.references, h.names, h.sound⟩

/-- There are no more relocated pointers than references in the document. -/
theorem length_le (h : Records document st xs) : xs.length ≤ document.mentions.length := by
  have hsub : ∀ r ∈ xs.map (·.reference), r ∈ document.mentions := by
    intro r hr
    obtain ⟨x, hx, rfl⟩ := List.mem_map.mp hr
    exact (h.sound x hx).mentioned
  have hle := (List.subperm_of_subset h.references hsub).length_le
  rwa [List.length_map] at hle

end Records

/-- A state with one more relocated pointer. -/
def Relocation.add (st : Relocation) (x : Relocated) : Relocation where
  moved := (x.reference, x.name) :: st.moved
  taken := x.name :: st.taken
  pending := st.pending ++ [x.entry]

theorem Records.add {x : Relocated} (h : Records document st xs) (hx : x.Sound document)
    (hnew : ∀ y ∈ xs, y.reference ≠ x.reference) (hfree : x.name ∉ st.taken) :
    Records document (st.add x) (xs ++ [x]) := by
  rw [h.taken] at hfree
  simp only [List.mem_append, List.mem_reverse, not_or] at hfree
  constructor
  · simp [Relocation.add, h.moved]
  · simp [Relocation.add, h.taken]
  · rw [List.map_append, List.map_singleton]
    refine List.Nodup.append h.references (List.nodup_singleton _) fun r hr hr' => ?_
    obtain ⟨y, hy, rfl⟩ := List.mem_map.mp hr
    exact hnew y hy (List.mem_singleton.mp hr')
  · rw [List.map_append, List.map_singleton]
    refine List.Nodup.append h.names (List.nodup_singleton _) fun n hn hn' => ?_
    exact hfree.1 (List.mem_singleton.mp hn' ▸ hn)
  · intro y hy
    rcases List.mem_append.mp hy with hy | hy
    · exact h.sound y hy
    · exact List.mem_singleton.mp hy ▸ hx

/-! ## Redirecting -/

/-- The search for a name ends, at the first of those numbered after the base that is not taken. -/
theorem freshName_facts (taken : List String) (base : String) : ∃ i,
    freshName taken.contains taken.length base = numbered base i ∧ numbered base i ∉ taken ∧
      ∀ j < i, numbered base j ∈ taken := by
  have hunused := freshName_unused (fun n hn => List.contains_iff_mem.mp hn)
    (Nat.le_refl taken.length) base
  obtain ⟨i, hi, hbefore⟩ := freshName_first _ _ _ hunused
  refine ⟨i, hi, fun hmem => ?_, fun j hj => List.contains_iff_mem.mp (hbefore j hj)⟩
  rw [hi, List.contains_iff_mem.mpr hmem] at hunused
  exact absurd hunused (by simp)

/-- A pointer that is relocated is added to the record. -/
theorem relocate_ok (hr : Records document st xs) (hdeep : Reference.isDeep r = true)
    (hm : r ∈ document.mentions) (hnew : st.moved.lookup r = none)
    (h : Redirect.Gives (relocate document r) st r' st') :
    ∃ x : Relocated, x.reference = r ∧ st' = st.add x ∧ Records document st' (xs ++ [x]) ∧
      r' = Reference.toDefinition x.name := by
  unfold relocate at h
  split at h
  · rename_i owner first path htokens
    split at h
    · rw [gives_throw] at h
      exact h.elim
    · rename_i target htarget
      simp only [gives_bind, gives_get, gives_set, gives_pure] at h
      obtain ⟨_, _, ⟨rfl, rfl⟩, _, _, rfl, rfl, rfl⟩ := h
      obtain ⟨s, hs, hfollow⟩ := Option.bind_eq_some_iff.mp htarget
      -- the name is not taken, and neither by a definition: those are taken from the start
      obtain ⟨i, hi, hfree, -⟩ := freshName_facts st.taken (relocatedName owner (first :: path))
      rw [← hi] at hfree
      generalize freshName st.taken.contains st.taken.length
        (relocatedName owner (first :: path)) = name at *
      have hpoints : document.PointsAt r target := ⟨owner, first :: path, s,
        Reference.reads_iff.mpr ⟨(Bool.and_eq_true_iff.mp hdeep).1, htokens⟩,
        List.cons_ne_nil _ _, hs, Schema.follow_eq_some_iff.mp hfollow⟩
      have hfresh : name ∉ Assoc.keys document :=
        fun hkey => hfree (hr.taken ▸ List.mem_append_right _ hkey)
      have hsound : Relocated.Sound document ⟨r, name, target⟩ :=
        ⟨hdeep, hm, hpoints, ⟨owner, first :: path, i, htokens, hi⟩, hfresh⟩
      exact ⟨⟨r, name, target⟩, rfl, rfl, hr.add hsound (hr.new_of_lookup hnew) hfree, rfl⟩
  · rw [gives_throw] at h
    exact h.elim

/-- The record goes on from `xs` to `ys`, in which the references `refs` are settled. -/
structure Settles [Text.Transliteration] (document : Definitions) (xs : List Relocated)
    (st : Relocation) (refs : List String) (ys : List Relocated) (st' : Relocation) : Prop where
  records : Records document st' ys
  grown : ∃ new, ys = xs ++ new ∧ st'.pending = st.pending ++ new.map Relocated.entry
  settled : ∀ r ∈ refs, Settled document ys r

theorem redirectReference_ok (hr : Records document st xs) (hm : r ∈ document.mentions)
    (h : Redirect.Gives (redirectReference document r) st r' st') :
    ∃ ys, Settles document xs st [r] ys st' ∧ r' = renamed (nameIn ys) r := by
  unfold redirectReference at h
  simp only at h
  split at h
  · rw [gives_bind] at h
    obtain ⟨_, _, h, -⟩ := h
    rw [gives_throw] at h
    exact h.elim
  · rename_i hlocal
    split at h
    · rename_i n hn
      split at h
      · rename_i hhas
        rw [gives_pure] at h
        obtain ⟨rfl, rfl⟩ := h
        -- a reference to a definition is left as it is
        refine ⟨xs, ⟨hr, ⟨[], by simp⟩, fun s hs => ?_⟩, ?_⟩
        · obtain rfl := List.mem_singleton.mp hs
          exact Or.inl ⟨n, hn, Assoc.has_iff_mem_keys.mp hhas⟩
        · rw [renamed, isDeep_of_name? hn]
          rfl
      · rw [gives_throw] at h
        exact h.elim
    · rename_i hnone
      have hdeep : Reference.isDeep r = true := by
        rw [Reference.isDeep, hnone]
        simpa using hlocal
      simp only [gives_bind, gives_get] at h
      obtain ⟨_, _, ⟨rfl, rfl⟩, h⟩ := h
      split at h
      · rename_i n hn
        rw [gives_pure] at h
        obtain ⟨rfl, rfl⟩ := h
        obtain ⟨x, hx, rfl, rfl⟩ := hr.exists_of_lookup hn
        -- a pointer on record gets the name that it has there
        refine ⟨xs, ⟨hr, ⟨[], by simp⟩, fun s hs => ?_⟩, ?_⟩
        · obtain rfl := List.mem_singleton.mp hs
          exact Or.inr ⟨hdeep, x, hx, rfl⟩
        · rw [renamed, if_pos hdeep, hr.nameIn_eq hx]
      · rename_i hnew
        -- any other pointer is relocated
        obtain ⟨x, rfl, rfl, hadded, rfl⟩ := relocate_ok hr hdeep hm hnew h
        have hx : x ∈ xs ++ [x] := List.mem_append_right _ List.mem_cons_self
        refine ⟨xs ++ [x], ⟨hadded, ⟨[x], rfl, rfl⟩, fun s hs => ?_⟩, ?_⟩
        · obtain rfl := List.mem_singleton.mp hs
          exact Or.inr ⟨hdeep, x, hx, rfl⟩
        · rw [renamed, if_pos hdeep, hadded.nameIn_eq hx]

/-- Redirecting settles references, and gives what `P` says of any later record. -/
def Follows [Text.Transliteration] (document : Definitions) (xs : List Relocated) (st : Relocation)
    (refs : List String) (st' : Relocation) (P : (String → String) → Prop) : Prop :=
  ∃ ys, Settles document xs st refs ys st' ∧ ∀ later, P (renamed (nameIn (ys ++ later)))

variable {st₁ : Relocation} {P Q : (String → String) → Prop}

theorem follows_nothing (hr : Records document st xs) (hP : ∀ g, P g) :
    Follows document xs st [] st P :=
  ⟨xs, ⟨hr, ⟨[], by simp⟩, fun _ h => absurd h List.not_mem_nil⟩, fun _ => hP _⟩

theorem Follows.mono (h : Follows document xs st refs st' P) (hPQ : ∀ g, P g → Q g) :
    Follows document xs st refs st' Q := by
  obtain ⟨ys, hys, hP⟩ := h
  exact ⟨ys, hys, fun later => hPQ _ (hP later)⟩

/-- One after the other, both say what they say of the record in the end. -/
theorem Follows.and (h : Follows document xs st refs st₁ P)
    (h' : ∀ ys, Records document st₁ ys → Follows document ys st₁ refs' st' Q) :
    Follows document xs st (refs ++ refs') st' fun g => P g ∧ Q g := by
  obtain ⟨ys, ⟨hr, ⟨new, rfl, hpending⟩, hsettled⟩, hP⟩ := h
  obtain ⟨zs, ⟨hr', ⟨new', rfl, hpending'⟩, hsettled'⟩, hQ⟩ := h' _ hr
  refine ⟨_, ⟨hr', ⟨new ++ new', List.append_assoc _ _ _, ?_⟩, fun r hmem => ?_⟩, fun later => ?_⟩
  · rw [hpending', hpending, List.map_append, List.append_assoc]
  · rcases List.mem_append.mp hmem with hmem | hmem
    · exact (hsettled r hmem).append
    · exact hsettled' r hmem
  · have hlater := hP (new' ++ later)
    rw [← List.append_assoc] at hlater
    exact ⟨hlater, hQ later⟩

theorem redirectReference_follows (hr : Records document st xs) (hm : r ∈ document.mentions)
    (h : Redirect.Gives (redirectReference document r) st r' st') :
    Follows document xs st [r] st' fun g => r' = g r := by
  obtain ⟨ys, hys, hr'⟩ := redirectReference_ok hr hm h
  refine ⟨ys, hys, fun later => ?_⟩
  show r' = renamed (nameIn (ys ++ later)) r
  rw [hr', renamed_append (hys.settled r List.mem_cons_self)]

/-- Redirects the reference of a schema, if it has one. -/
def redirectOwn [Text.Transliteration] (document : Definitions) :
    Option String → Redirect (Option String)
  | some r => some <$> redirectReference document r
  | none => pure none

/-- A schema is redirected part by part, its own reference first. -/
theorem redirect_eq (keywords : Keywords) (properties : List (String × Schema))
    (allOf : List Schema) (items : Option (Items Schema)) (value extraItems : Option (Extra Schema)) :
    redirect document ⟨keywords, properties, allOf, items, value, extraItems⟩ = (do
      let reference ← redirectOwn document keywords.reference
      let properties ← redirectProperties document properties
      let allOf ← redirectList document allOf
      let items ← redirectItems document items
      let value ← redirectExtra document value
      let extraItems ← redirectExtra document extraItems
      return ⟨{ keywords with reference }, properties, allOf, items, value, extraItems⟩) := by
  rw [redirect]
  cases keywords.reference <;> rfl

theorem redirectOwn_follows {own own' : Option String} (hr : Records document st xs)
    (hm : ∀ r ∈ own.toList, r ∈ document.mentions)
    (h : Redirect.Gives (redirectOwn document own) st own' st') :
    Follows document xs st own.toList st' fun g => own' = own.map g := by
  match own with
  | none =>
    obtain ⟨rfl, rfl⟩ := gives_pure.mp h
    exact follows_nothing hr fun g => rfl
  | some r =>
    obtain ⟨r', hr', rfl⟩ := gives_map.mp h
    refine (redirectReference_follows hr (hm r List.mem_cons_self) hr').mono fun g hg => ?_
    rw [hg, Option.map_some]

mutual

/-- **Redirecting puts the names on record in place of deep pointers**, and all pointers on record. -/
theorem redirect_ok : ∀ (s : Schema) {s' : Schema} {st st' : Relocation} {xs : List Relocated},
    Records document st xs → (∀ r ∈ s.mentions, r ∈ document.mentions) →
    Redirect.Gives (redirect document s) st s' st' →
    Follows document xs st s.mentions st' fun g => s' = s.mapReferences g
  | ⟨keywords, properties, allOf, items, value, extraItems⟩, s', st, st', xs, hr, hm, h => by
    simp only [redirect_eq, gives_bind, gives_pure] at h
    obtain ⟨reference', st₁, href, properties', st₂, hprops, allOf', st₃, hall, items', st₄,
      hitems, value', st₅, hvalue, extraItems', st₆, hextra, rfl, rfl⟩ := h
    simp only [Schema.mentions, List.mem_append] at hm
    -- each part follows on the record that the part before it left
    have hown := redirectOwn_follows hr (fun r hr => hm r (by simp [hr])) href
    have hproperties := hown.and fun ys hys =>
      redirectProperties_ok properties hys (fun r hr => hm r (by simp [hr])) hprops
    have hbranches := hproperties.and fun ys hys =>
      redirectList_ok allOf hys (fun r hr => hm r (by simp [hr])) hall
    have hitems := hbranches.and fun ys hys =>
      redirectItems_ok items hys (fun r hr => hm r (by simp [hr])) hitems
    have hvalue := hitems.and fun ys hys =>
      redirectExtra_ok value hys (fun r hr => hm r (by simp [hr])) hvalue
    have hextra := hvalue.and fun ys hys =>
      redirectExtra_ok extraItems hys (fun r hr => hm r (by simp [hr])) hextra
    rw [Schema.mentions]
    refine hextra.mono fun g hg => ?_
    obtain ⟨⟨⟨⟨⟨rfl, rfl⟩, rfl⟩, rfl⟩, rfl⟩, rfl⟩ := hg
    rw [Schema.mapReferences]

theorem redirectProperties_ok : ∀ (properties : List (String × Schema))
    {properties' : List (String × Schema)} {st st' : Relocation} {xs : List Relocated},
    Records document st xs →
    (∀ r ∈ Schema.propertyMentions properties, r ∈ document.mentions) →
    Redirect.Gives (redirectProperties document properties) st properties' st' →
    Follows document xs st (Schema.propertyMentions properties) st' fun g =>
      properties' = Schema.mapPropertyReferences g properties
  | [], properties', st, st', xs, hr, _, h => by
    obtain ⟨rfl, rfl⟩ := gives_pure.mp h
    exact follows_nothing hr fun g => rfl
  | (n, s) :: rest, properties', st, st', xs, hr, hm, h => by
    simp only [redirectProperties, gives_bind, gives_pure] at h
    obtain ⟨s', st₁, hs, rest', st₂, hrest, rfl, rfl⟩ := h
    simp only [Schema.propertyMentions, List.mem_append] at hm ⊢
    refine ((redirect_ok s hr (fun r hr => hm r (.inl hr)) hs).and fun ys hys =>
      redirectProperties_ok rest hys (fun r hr => hm r (.inr hr)) hrest).mono fun g hg => ?_
    rw [Schema.mapPropertyReferences, hg.1, hg.2]

theorem redirectList_ok : ∀ (l : List Schema) {l' : List Schema} {st st' : Relocation}
    {xs : List Relocated}, Records document st xs →
    (∀ r ∈ Schema.listMentions l, r ∈ document.mentions) →
    Redirect.Gives (redirectList document l) st l' st' →
    Follows document xs st (Schema.listMentions l) st' fun g =>
      l' = Schema.mapListReferences g l
  | [], l', st, st', xs, hr, _, h => by
    obtain ⟨rfl, rfl⟩ := gives_pure.mp h
    exact follows_nothing hr fun g => rfl
  | s :: rest, l', st, st', xs, hr, hm, h => by
    simp only [redirectList, gives_bind, gives_pure] at h
    obtain ⟨s', st₁, hs, rest', st₂, hrest, rfl, rfl⟩ := h
    simp only [Schema.listMentions, List.mem_append] at hm ⊢
    refine ((redirect_ok s hr (fun r hr => hm r (.inl hr)) hs).and fun ys hys =>
      redirectList_ok rest hys (fun r hr => hm r (.inr hr)) hrest).mono fun g hg => ?_
    rw [Schema.mapListReferences, hg.1, hg.2]

theorem redirectItems_ok : ∀ (items : Option (Items Schema)) {items' : Option (Items Schema)}
    {st st' : Relocation} {xs : List Relocated}, Records document st xs →
    (∀ r ∈ Schema.itemMentions items, r ∈ document.mentions) →
    Redirect.Gives (redirectItems document items) st items' st' →
    Follows document xs st (Schema.itemMentions items) st' fun g =>
      items' = Schema.mapItemReferences g items
  | none, items', st, st', xs, hr, _, h => by
    obtain ⟨rfl, rfl⟩ := gives_pure.mp h
    exact follows_nothing hr fun g => rfl
  | some (.single s), items', st, st', xs, hr, hm, h => by
    simp only [redirectItems, gives_bind, gives_pure] at h
    obtain ⟨s', st₁, hs, rfl, rfl⟩ := h
    refine (redirect_ok s hr hm hs).mono fun g hg => ?_
    rw [Schema.mapItemReferences, hg]
  | some (.tuple schemas), items', st, st', xs, hr, hm, h => by
    simp only [redirectItems, gives_bind, gives_pure] at h
    obtain ⟨l', st₁, hl, rfl, rfl⟩ := h
    refine (redirectList_ok schemas hr hm hl).mono fun g hg => ?_
    rw [Schema.mapItemReferences, hg]

theorem redirectExtra_ok : ∀ (extra : Option (Extra Schema)) {extra' : Option (Extra Schema)}
    {st st' : Relocation} {xs : List Relocated}, Records document st xs →
    (∀ r ∈ Schema.extraMentions extra, r ∈ document.mentions) →
    Redirect.Gives (redirectExtra document extra) st extra' st' →
    Follows document xs st (Schema.extraMentions extra) st' fun g =>
      extra' = Schema.mapExtraReferences g extra
  | none, extra', st, st', xs, hr, _, h => by
    obtain ⟨rfl, rfl⟩ := gives_pure.mp h
    exact follows_nothing hr fun g => rfl
  | some (.flag _), extra', st, st', xs, hr, _, h => by
    obtain ⟨rfl, rfl⟩ := gives_pure.mp h
    exact follows_nothing hr fun g => rfl
  | some (.schema s), extra', st, st', xs, hr, hm, h => by
    simp only [redirectExtra, gives_bind, gives_pure] at h
    obtain ⟨s', st₁, hs, rfl, rfl⟩ := h
    refine (redirect_ok s hr hm hs).mono fun g hg => ?_
    rw [Schema.mapExtraReferences, hg]

end

/-! ## Once everything is on record -/

theorem redirectReference_of_settled [Text.Transliteration] (hr : Records document st xs)
    (h : Settled document xs r) :
    Redirect.Gives (redirectReference document r) st (renamed (nameIn xs) r) st := by
  unfold redirectReference
  rcases h with ⟨n, hn, hkey⟩ | ⟨hdeep, x, hx, rfl⟩
  · rw [if_neg (by rw [Registry.isLocal_of_name? hn]; simp), hn]
    simp only [if_pos (Assoc.has_iff_mem_keys.mpr hkey), renamed, isDeep_of_name? hn]
    exact gives_pure.mpr ⟨rfl, rfl⟩
  · obtain ⟨hlocal, hnone⟩ : Reference.isLocal x.reference = true ∧
        Reference.name? x.reference = none := by
      simpa [Reference.isDeep] using hdeep
    rw [if_neg (by rw [hlocal]; simp), hnone]
    simp only [renamed, if_pos hdeep, hr.nameIn_eq hx]
    refine gives_bind.mpr ⟨st, st, gives_get.mpr ⟨rfl, rfl⟩, ?_⟩
    rw [hr.lookup hx]
    exact gives_pure.mpr ⟨rfl, rfl⟩

variable {g : String → String}

mutual

/-- **A schema whose references are on record is redirected as they are**, and none is added. -/
theorem redirect_of_settled [Text.Transliteration] : ∀ s : Schema,
    (∀ r ∈ s.mentions, Redirect.Gives (redirectReference document r) st (g r) st) →
    Redirect.Gives (redirect document s) st (s.mapReferences g) st
  | ⟨keywords, properties, allOf, items, value, extraItems⟩, h => by
    simp only [Schema.mentions, List.mem_append] at h
    have hown : Redirect.Gives (redirectOwn document keywords.reference) st
        (keywords.reference.map g) st := by
      match hk : keywords.reference with
      | none => exact gives_pure.mpr ⟨rfl, rfl⟩
      | some r => exact gives_map.mpr ⟨g r, h r (by simp [hk]), rfl⟩
    simp only [redirect_eq, gives_bind, gives_pure]
    rw [Schema.mapReferences]
    exact ⟨_, _, hown,
      _, _, redirectProperties_of_settled properties fun r hr => h r (by simp [hr]),
      _, _, redirectList_of_settled allOf fun r hr => h r (by simp [hr]),
      _, _, redirectItems_of_settled items fun r hr => h r (by simp [hr]),
      _, _, redirectExtra_of_settled value fun r hr => h r (by simp [hr]),
      _, _, redirectExtra_of_settled extraItems fun r hr => h r (by simp [hr]), rfl, rfl⟩

theorem redirectProperties_of_settled [Text.Transliteration] :
    ∀ properties : List (String × Schema),
    (∀ r ∈ Schema.propertyMentions properties,
      Redirect.Gives (redirectReference document r) st (g r) st) →
    Redirect.Gives (redirectProperties document properties) st
      (Schema.mapPropertyReferences g properties) st
  | [], _ => gives_pure.mpr ⟨rfl, rfl⟩
  | (n, s) :: rest, h => by
    simp only [Schema.propertyMentions, List.mem_append] at h
    simp only [redirectProperties, gives_bind, gives_pure]
    exact ⟨_, _, redirect_of_settled s fun r hr => h r (.inl hr),
      _, _, redirectProperties_of_settled rest fun r hr => h r (.inr hr), rfl, rfl⟩

theorem redirectList_of_settled [Text.Transliteration] : ∀ l : List Schema,
    (∀ r ∈ Schema.listMentions l, Redirect.Gives (redirectReference document r) st (g r) st) →
    Redirect.Gives (redirectList document l) st (Schema.mapListReferences g l) st
  | [], _ => gives_pure.mpr ⟨rfl, rfl⟩
  | s :: rest, h => by
    simp only [Schema.listMentions, List.mem_append] at h
    simp only [redirectList, gives_bind, gives_pure]
    exact ⟨_, _, redirect_of_settled s fun r hr => h r (.inl hr),
      _, _, redirectList_of_settled rest fun r hr => h r (.inr hr), rfl, rfl⟩

theorem redirectItems_of_settled [Text.Transliteration] : ∀ items : Option (Items Schema),
    (∀ r ∈ Schema.itemMentions items, Redirect.Gives (redirectReference document r) st (g r) st) →
    Redirect.Gives (redirectItems document items) st (Schema.mapItemReferences g items) st
  | none, _ => gives_pure.mpr ⟨rfl, rfl⟩
  | some (.single s), h => by
    simp only [redirectItems, gives_bind, gives_pure]
    exact ⟨_, _, redirect_of_settled s h, rfl, rfl⟩
  | some (.tuple schemas), h => by
    simp only [redirectItems, gives_bind, gives_pure]
    exact ⟨_, _, redirectList_of_settled schemas h, rfl, rfl⟩

theorem redirectExtra_of_settled [Text.Transliteration] : ∀ extra : Option (Extra Schema),
    (∀ r ∈ Schema.extraMentions extra, Redirect.Gives (redirectReference document r) st (g r) st) →
    Redirect.Gives (redirectExtra document extra) st (Schema.mapExtraReferences g extra) st
  | none, _ => gives_pure.mpr ⟨rfl, rfl⟩
  | some (.flag _), _ => gives_pure.mpr ⟨rfl, rfl⟩
  | some (.schema s), h => by
    simp only [redirectExtra, gives_bind, gives_pure]
    exact ⟨_, _, redirect_of_settled s h, rfl, rfl⟩

end

end KclModels.Canonical
