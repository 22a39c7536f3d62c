import KclModels.Proofs.Canonical.Relocating
import KclModels.Text.AsciiTable

/-!
# What canonicalizing gives

After all definitions are redirected every reference of the document is on record, and what is
pending are copies of schemas of the document. So redirecting what is pending records nothing, and
there is no more pending than there are references in the document: the bound on the rounds is not
reached. Hence the result is the document and a definition for each deep pointer in it, all with the
names of the record in place of the pointers (`canonicalize_ok`).
-/

namespace KclModels.Canonical

variable {document output : Definitions} {st : Relocation} {xs : List Relocated} {r : String}

/-- The schema of a relocated definition, with the names on record in place of its pointers. -/
def Relocated.made (xs : List Relocated) (x : Relocated) : String × Schema :=
  (x.name, x.target.mapReferences (renamed (nameIn xs)))

/--
Redirecting what is pending for as long as there is something, without a bound on the rounds:
started in `st` it takes `rounds` of them, gives `relocated` and leaves `st'`.
-/
inductive Drains [Text.Transliteration] (document : Definitions) : Relocation → (rounds : Nat) →
    (relocated : Definitions) → Relocation → Prop
  | done {st : Relocation} : st.pending = [] → Drains document st 0 [] st
  | round {st st₁ st' : Relocation} {name : String} {s s' : Schema} {rest : Definitions}
      {rounds : Nat} {relocated : Definitions} :
      st.pending = (name, s) :: rest →
      Redirect.Gives (redirect document s) { st with pending := rest } s' st₁ →
      Drains document st₁ rounds relocated st' →
      Drains document st (rounds + 1) ((name, s') :: relocated) st'

section

variable {tr : Text.Transliteration}

/-- A bound of at least the rounds that it takes changes nothing. -/
theorem Drains.gives {rounds : Nat} {relocated : Definitions} {st' : Relocation}
    (h : Drains document st rounds relocated st') :
    ∀ bound, rounds ≤ bound → Redirect.Gives (redirectPending document bound) st relocated st' := by
  induction h with
  | done hnone =>
    intro bound _
    cases bound with
    | zero => exact gives_pure.mpr ⟨rfl, rfl⟩
    | succ bound =>
      unfold redirectPending
      refine gives_bind.mpr ⟨_, _, gives_get.mpr ⟨rfl, rfl⟩, ?_⟩
      -- nothing is pending, so the rest of the bound is not used
      rw [hnone]
      exact gives_pure.mpr ⟨rfl, rfl⟩
  | round hnext hs _ ih =>
    intro bound hbound
    cases bound with
    | zero => omega
    | succ bound =>
      have hrest := ih bound (Nat.le_of_succ_le_succ hbound)
      unfold redirectPending
      refine gives_bind.mpr ⟨_, _, gives_get.mpr ⟨rfl, rfl⟩, ?_⟩
      rw [hnext]
      simp only [gives_bind, gives_set, gives_pure]
      exact ⟨⟨⟩, _, rfl, _, _, hs, _, _, hrest, rfl, rfl⟩

/-- There is one way that this goes. -/
theorem Drains.unique {rounds rounds' : Nat} {relocated relocated' : Definitions}
    {st' st'' : Relocation} (h : Drains document st rounds relocated st')
    (h' : Drains document st rounds' relocated' st'') :
    rounds = rounds' ∧ relocated = relocated' ∧ st' = st'' := by
  induction h generalizing rounds' relocated' st'' with
  | done hnone =>
    cases h' with
    | done _ => exact ⟨rfl, rfl, rfl⟩
    | round hnext _ _ =>
      -- pending and not pending cannot both be
      rw [hnone] at hnext
      exact absurd hnext (by simp)
  | round hnext hs _ ih =>
    cases h' with
    | done hnone =>
      rw [hnone] at hnext
      exact absurd hnext (by simp)
    | round hnext' hs' hrest =>
      obtain ⟨hhead, rfl⟩ := List.cons.inj (hnext.symm.trans hnext')
      obtain ⟨rfl, rfl⟩ := Prod.mk.inj hhead
      obtain ⟨rfl, rfl⟩ := Prod.mk.inj (Except.ok.inj (hs.symm.trans hs'))
      obtain ⟨rfl, rfl, rfl⟩ := ih hrest
      exact ⟨rfl, rfl, rfl⟩

/--
**When everything is on record, what is pending is redirected in its order**, each of it in one
round, and no round adds to it.
-/
theorem drains_of_settled (hall : ∀ r ∈ document.mentions, Settled document xs r) :
    ∀ (waiting : List Relocated) {st : Relocation}, Records document st xs →
    st.pending = waiting.map Relocated.entry → (∀ x ∈ waiting, x ∈ xs) →
    Drains document st waiting.length (waiting.map (Relocated.made xs)) { st with pending := [] } := by
  intro waiting
  induction waiting with
  | nil =>
    intro st _ hpending _
    rw [List.map_nil] at hpending
    rw [← hpending]
    exact .done hpending
  | cons x rest ih =>
    intro st hr hpending hmem
    have hx := hr.sound x (hmem x List.mem_cons_self)
    have hr' := hr.pending (rest.map Relocated.entry)
    -- the copy has no references but those of the document
    have hcopy := redirect_of_settled x.target fun r hr =>
      redirectReference_of_settled hr' (hall r (hx.target.mentions r hr))
    exact .round hpending hcopy (ih hr' rfl fun y hy => hmem y (List.mem_cons_of_mem _ hy))

theorem redirectPending_ok (hall : ∀ r ∈ document.mentions, Settled document xs r) {rounds : Nat}
    (waiting : List Relocated) {st : Relocation} (hr : Records document st xs)
    (hpending : st.pending = waiting.map Relocated.entry) (hmem : ∀ x ∈ waiting, x ∈ xs)
    (hlen : waiting.length ≤ rounds) :
    ∃ st', Redirect.Gives (redirectPending document rounds) st
      (waiting.map (Relocated.made xs)) st' :=
  ⟨_, (drains_of_settled hall waiting hr hpending hmem).gives rounds hlen⟩

/-- The state before the first definition is redirected. -/
def startOf (document : Definitions) : Relocation := { taken := Assoc.keys document }

theorem records_start [Text.Transliteration] (document : Definitions) :
    Records document (startOf document) [] where
  moved := rfl
  taken := rfl
  references := List.nodup_nil
  names := List.nodup_nil
  sound := fun _ h => absurd h List.not_mem_nil

/-- Canonicalizing redirects all definitions, then what they left pending, and looks for loops. -/
theorem canonicalize_eq_ok_iff : canonicalize document = .ok output ↔
    ∃ redirected st relocated st',
      Redirect.Gives (redirectAll document document) (startOf document) redirected st ∧
      Redirect.Gives (redirectPending document (Schema.propertiesSize document)) st relocated st' ∧
      checkLoops (redirected ++ relocated) = .ok () ∧ redirected ++ relocated = output := by
  have hpure : ∀ a b : Definitions, (pure a : Except ReferenceError Definitions) = .ok b ↔ a = b :=
    fun a b => ⟨Except.ok.inj, congrArg Except.ok⟩
  unfold canonicalize
  simp only [bind_eq_ok, Prod.exists, hpure]
  constructor
  · rintro ⟨redirected, st, hall, relocated, st', hpending, ⟨⟩, hcheck, heq⟩
    exact ⟨redirected, st, relocated, st', hall, hpending, hcheck, heq⟩
  · rintro ⟨redirected, st, relocated, st', hall, hpending, hcheck, heq⟩
    exact ⟨redirected, st, hall, relocated, st', hpending, ⟨⟩, hcheck, heq⟩

/-- **What canonicalizing gives**: the document and a copy for each deep pointer in it. -/
theorem canonicalize_ok (h : canonicalize document = .ok output) :
    ∃ st xs, Records document st xs ∧ (∀ r ∈ document.mentions, Settled document xs r) ∧
      output = Schema.mapPropertyReferences (renamed (nameIn xs)) document ++
        xs.map (Relocated.made xs) ∧
      checkLoops output = .ok () := by
  obtain ⟨redirected, st, relocated, st', hredirected, hrelocated, hcheck, rfl⟩ :=
    canonicalize_eq_ok_iff.mp h
  obtain ⟨xs, ⟨hr, ⟨new, heq, hpending⟩, hall⟩, hout⟩ :=
    redirectProperties_ok document (records_start document) (fun _ hr => hr) hredirected
  obtain rfl : xs = new := heq
  have hbound : xs.length ≤ Schema.propertiesSize document :=
    Nat.le_trans hr.length_le document.length_mentions_le
  obtain ⟨st'', hmade⟩ := redirectPending_ok hall _ hr hpending (fun _ hx => hx) hbound
  have hsame : Except.ok (relocated, st') = Except.ok (_, st'') := hrelocated.symm.trans hmade
  obtain ⟨rfl, -⟩ := Prod.mk.inj (Except.ok.inj hsame)
  have hfirst := hout []
  simp only [List.append_nil] at hfirst
  exact ⟨st, xs, hr, hall, by rw [hfirst], hcheck⟩

/-! ## Names for pointers -/

/--
The result is the document with a definition `m r` for each deep pointer `r` in it: references to
these stand in place of the pointers, and each holds a copy of what its pointer leads to.
-/
structure Relocates (document : Definitions) (m : String → String) (output : Definitions) :
    Prop where
  /-- The definitions of the document come first, in their order, then those for the pointers. -/
  keys : ∃ deep : List String, deep.Nodup ∧
    (∀ r, r ∈ deep ↔ r ∈ document.mentions ∧ Reference.isDeep r = true) ∧
    Assoc.keys output = Assoc.keys document ++ deep.map m
  kept : ∀ n s, document.lookup n = some s → output.lookup n = some (s.mapReferences (renamed m))
  made : ∀ r ∈ document.mentions, Reference.isDeep r = true →
    ∃ t, document.PointsAt r t ∧ output.lookup (m r) = some (t.mapReferences (renamed m))
  injective : ∀ r ∈ document.mentions, ∀ r' ∈ document.mentions, Reference.isDeep r = true →
    Reference.isDeep r' = true → m r = m r' → r = r'
  fresh : ∀ r ∈ document.mentions, Reference.isDeep r = true → m r ∉ Assoc.keys document

theorem Settled.exists_of_deep (h : Settled document xs r) (hdeep : Reference.isDeep r = true) :
    ∃ x ∈ xs, x.reference = r := by
  rcases h with ⟨n, hn, -⟩ | ⟨-, hx⟩
  · rw [isDeep_of_name? hn] at hdeep
    exact absurd hdeep (by decide)
  · exact hx

theorem keys_made (xs ys : List Relocated) :
    Assoc.keys (ys.map (Relocated.made xs)) = ys.map (·.name) := by
  rw [Assoc.keys, List.map_map]
  rfl

theorem lookup_made (hr : Records document st xs) {x : Relocated} (hx : x ∈ xs) :
    (Schema.mapPropertyReferences (renamed (nameIn xs)) document ++
      xs.map (Relocated.made xs)).lookup x.name =
      some (x.target.mapReferences (renamed (nameIn xs))) := by
  have hnot : document.lookup x.name = none := Assoc.lookup_eq_none (hr.sound x hx).fresh
  have hlast : (xs.map (Relocated.made xs)).lookup x.name =
      some (x.target.mapReferences (renamed (nameIn xs))) :=
    Assoc.lookup_of_mem (keys_made xs xs ▸ hr.names) (List.mem_map.mpr ⟨x, hx, rfl⟩)
  rw [List.lookup_append, Schema.lookup_mapPropertyReferences, hnot, hlast, Option.map_none,
    Option.none_or]

/-- **Relocating deep pointers preserves the document.** -/
theorem canonicalize_relocates (h : canonicalize document = .ok output) :
    ∃ m, Relocates document m output := by
  obtain ⟨st, xs, hr, hall, rfl, -⟩ := canonicalize_ok h
  -- every deep pointer is on record with its name
  have hrecord : ∀ r ∈ document.mentions, Reference.isDeep r = true →
      ∃ x ∈ xs, x.reference = r ∧ nameIn xs r = x.name := by
    intro r hm hdeep
    obtain ⟨x, hx, rfl⟩ := (hall r hm).exists_of_deep hdeep
    exact ⟨x, hx, rfl, hr.nameIn_eq hx⟩
  refine ⟨nameIn xs, ?_, ?_, ?_, ?_, ?_⟩
  · refine ⟨xs.map (·.reference), hr.references, fun r => ⟨fun hmem => ?_, fun ⟨hm, hdeep⟩ => ?_⟩, ?_⟩
    · obtain ⟨x, hx, rfl⟩ := List.mem_map.mp hmem
      exact ⟨(hr.sound x hx).mentioned, (hr.sound x hx).deep⟩
    · obtain ⟨x, hx, href⟩ := (hall r hm).exists_of_deep hdeep
      exact List.mem_map.mpr ⟨x, hx, href⟩
    · have hnames : (xs.map (·.reference)).map (nameIn xs) = xs.map (·.name) := by
        rw [List.map_map]
        exact List.map_congr_left fun x hx => hr.nameIn_eq hx
      rw [hnames, ← keys_made xs xs, Assoc.keys, List.map_append]
      exact congrArg (· ++ _) (Schema.keys_mapPropertyReferences document)
  · intro n s hs
    rw [List.lookup_append, Schema.lookup_mapPropertyReferences, hs, Option.map_some,
      Option.some_or]
  · intro r hm hdeep
    obtain ⟨x, hx, rfl, hname⟩ := hrecord r hm hdeep
    exact ⟨x.target, (hr.sound x hx).target, hname ▸ lookup_made hr hx⟩
  · intro r hm r' hm' hdeep hdeep' heq
    obtain ⟨x, hx, rfl, hname⟩ := hrecord r hm hdeep
    -- names are not given twice, so the same name is the same record
    obtain ⟨x', hx', rfl, hname'⟩ := hrecord r' hm' hdeep'
    rw [hname, hname'] at heq
    rw [List.inj_on_of_nodup_map hr.names hx hx' heq]
  · intro r hm hdeep
    obtain ⟨x, hx, rfl, hname⟩ := hrecord r hm hdeep
    exact hname ▸ (hr.sound x hx).fresh

end

/--
An order with a buyer and two kinds of amounts, and a bill whose payer is the buyer and whose total
is of the second kind. The property that is pointed through has a slash in its name.
-/
def bills : Definitions := [
  ("Order", { types := ["object"], properties := [
    ("buyer", { types := ["object"], properties := [
      ("agent", { reference := some "#/definitions/Order/properties/seller" })] }),
    ("seller", { types := ["object"], properties := [("name", .typed "string")] }),
    ("net/gross", { allOf := [.typed "integer", .typed "number"] })] }),
  ("OrderSeller", { types := ["object"], properties := [("order", .referenceTo "Order")] }),
  ("Bill", { types := ["object"], properties := [
    ("payer", { reference := some "#/definitions/Order/properties/buyer" }),
    ("total", { reference := some "#/definitions/Order/properties/net~1gross/allOf/1" })] })]

/-- The total points at the second amount of the property. -/
theorem bills_total_pointsAt :
    bills.PointsAt "#/definitions/Order/properties/net~1gross/allOf/1" (.typed "number") :=
  ⟨"Order", ["properties", "net/gross", "allOf", "1"], _,
    Reference.reads_iff.mpr ⟨by decide, by decide⟩, List.cons_ne_nil _ _, rfl,
    .property rfl (.branch (numeral_toString (i := 1) (by decide)) rfl (.here _))⟩

theorem bills_relocated : ∃ output, canonicalize bills = .ok output ∧
    Assoc.keys output =
      ["Order", "OrderSeller", "Bill", "OrderSeller1", "OrderBuyer", "OrderNetGrossNr1"] ∧
    (output.lookup "OrderNetGrossNr1").map (·.types) = some ["number"] ∧
    ∃ m, Relocates bills m output ∧
      output.lookup (m "#/definitions/Order/properties/net~1gross/allOf/1") =
        some (.typed "number") := by
  have hresult : (canonicalize bills).toOption.map (fun output =>
      (Assoc.keys output, (output.lookup "OrderNetGrossNr1").map (·.types))) =
        some (["Order", "OrderSeller", "Bill", "OrderSeller1", "OrderBuyer", "OrderNetGrossNr1"],
          some ["number"]) := by
    decide +kernel
  obtain ⟨output, hout, hresult⟩ := Option.map_eq_some_iff.mp hresult
  obtain ⟨hkeys, htypes⟩ := Prod.mk.inj hresult
  have hok := eq_ok_of_toOption hout
  obtain ⟨m, hm⟩ := canonicalize_relocates hok
  obtain ⟨t, ht, hmade⟩ := hm.made "#/definitions/Order/properties/net~1gross/allOf/1"
    (by decide +kernel) (by decide)
  -- there is one schema that the pointer leads to, and it has no references
  obtain rfl := bills_total_pointsAt.unique ht
  exact ⟨output, hok, hkeys, htypes, m, hm, hmade⟩

end KclModels.Canonical
