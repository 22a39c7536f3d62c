import KclModels.Proofs.Registry.Growth
import KclModels.Proofs.Schema.Within

/-!
# Chains of references

Following a reference goes from definition to definition until a schema that is no reference. The
bound on the steps does not matter for what is found, so a chain is the same relation at every
moment: what was found once is found again when there are more definitions, and a chain that starts
in the document never leaves it for the definitions that are made on the way.
-/

namespace KclModels.Registry

variable {r r' : Registry} {reference : String} {c : Schema}

theorem lookup_ok (h : r.lookup reference = .ok c) :
    ∃ n, Reference.name? reference = some n ∧ r.get? n = some c := by
  unfold lookup at h
  split at h
  · simp at h
  · split at h
    · rename_i d hd
      obtain ⟨n, hn, hg⟩ := Option.bind_eq_some_iff.mp hd
      rw [Except.ok.injEq] at h
      exact ⟨n, hn, h ▸ hg⟩
    · simp at h

/-- The schema at the end of a chain of references. -/
inductive Leads (r : Registry) : String → Schema → Prop
  | stop {reference n : String} {c : Schema} : Reference.name? reference = some n →
      r.get? n = some c → c.reference = none → Leads r reference c
  | next {reference n next : String} {c d : Schema} : Reference.name? reference = some n →
      r.get? n = some c → c.reference = some next → Leads r next d → Leads r reference d

theorem followFrom_leads {start current : String} {visited : List String} {steps : Nat}
    (h : r.followFrom start visited current steps = .ok c) : r.Leads current c := by
  induction steps generalizing visited current with
  | zero => simp [followFrom] at h
  | succ steps ih =>
    unfold followFrom at h
    split at h
    · simp at h
    · obtain ⟨d, hl, h⟩ := bind_eq_ok.mp h
      obtain ⟨n, hn, hd⟩ := lookup_ok hl
      split at h
      · rename_i next hnext
        exact .next hn hd hnext (ih h)
      · rename_i hstop
        rw [Except.ok.injEq] at h
        subst h
        exact .stop hn hd hstop

theorem resolve_leads (h : r.resolve reference = .ok c) : r.Leads reference c := followFrom_leads h

theorem Leads.reference_eq_none (h : r.Leads reference c) : c.reference = none := by
  induction h with
  | stop _ _ hnone => exact hnone
  | next _ _ _ _ ih => exact ih

/-- A chain ends at a definition. -/
theorem Leads.exists_stored (h : r.Leads reference c) : ∃ n, r.get? n = some c := by
  induction h with
  | stop _ hc _ => exact ⟨_, hc⟩
  | next _ _ _ _ ih => exact ih

/-- A chain starts at a definition. -/
theorem Leads.exists_name (h : r.Leads reference c) :
    ∃ n, Reference.name? reference = some n := by
  cases h with
  | stop hn _ _ => exact ⟨_, hn⟩
  | next hn _ _ _ => exact ⟨_, hn⟩

theorem Leads.mono (h : r.Leads reference c)
    (hr : ∀ n d, r.get? n = some d → r'.get? n = some d) : r'.Leads reference c := by
  induction h with
  | stop hn hc hnone => exact .stop hn (hr _ _ hc) hnone
  | next hn hc hnext _ ih => exact .next hn (hr _ _ hc) hnext ih

/-- **A chain that starts among definitions stays among them**, if they refer to nothing else. -/
theorem Leads.back {known : String → Prop} (h : r'.Leads reference c) (hr : r.Grows r')
    (hclosed : ∀ n, known n → ∃ d, r.get? n = some d ∧ ∀ m, d.referenceName = some m → known m)
    (hstart : ∀ n, Reference.name? reference = some n → known n) :
    r.Leads reference c := by
  induction h with
  | stop hn hc hnone =>
    obtain ⟨d, hd, -⟩ := hclosed _ (hstart _ hn)
    obtain rfl := Option.some.inj ((hr.keeps _ d hd).symm.trans hc)
    exact .stop hn hd hnone
  | next hn hc hnext _ ih =>
    obtain ⟨d, hd, hbelow⟩ := hclosed _ (hstart _ hn)
    obtain rfl := Option.some.inj ((hr.keeps _ d hd).symm.trans hc)
    refine .next hn hd hnext (ih fun m hm => hbelow m ?_)
    rw [Schema.referenceName, hnext]
    exact hm

end KclModels.Registry

/-!
## Grounded registries

A chain of references that comes to an end goes through no definition twice: from each definition
there is one way on, so one that was met again would be met for ever. So such a chain is no longer
than there are definitions, and following it succeeds within the steps that are allowed.

A registry is grounded if this is so for every reference in its definitions.
-/

namespace KclModels

theorem Text.eq_of_after? {head s t : String} (h : after? head s = some t) : s = head ++ t := by
  obtain ⟨cs, hcs, rfl⟩ := Option.map_eq_some_iff.mp h
  rw [← String.toList_inj, String.toList_append, String.toList_ofList]
  exact (List.append_eq_of_isPrefixOf?_eq_some hcs).symm

/-- A reference that names a definition is the reference to it. -/
theorem Reference.eq_toDefinition {reference name : String} (h : name? reference = some name) :
    reference = toDefinition name := by
  unfold name? at h
  split at h
  · rename_i rest hrest
    split at h
    · simp at h
    · obtain rfl := Option.some.inj h
      exact Text.eq_of_after? hrest
  · simp at h

namespace Registry

variable {r r' : Registry} {reference n : String} {names : List String} {c : Schema}

/-- The definitions that a chain of references goes through until it ends. -/
inductive Through (r : Registry) : String → List String → Schema → Prop
  | stop {reference n : String} {c : Schema} : Reference.name? reference = some n →
      r.get? n = some c → c.reference = none → Through r reference [n] c
  | next {reference n next : String} {names : List String} {c d : Schema} :
      Reference.name? reference = some n → r.get? n = some c → c.reference = some next →
      Through r next names d → Through r reference (n :: names) d

theorem Leads.through (h : r.Leads reference c) : ∃ names, r.Through reference names c := by
  induction h with
  | stop hn hc hnone => exact ⟨_, .stop hn hc hnone⟩
  | next hn hc hnext _ ih =>
    obtain ⟨names, hnames⟩ := ih
    exact ⟨_, .next hn hc hnext hnames⟩

/-- There is one way on from each reference. -/
theorem Through.unique {names' : List String} {d : Schema} (h : r.Through reference names c)
    (h' : r.Through reference names' d) : names = names' := by
  induction h generalizing names' with
  | stop hn hc hnone =>
    cases h' with
    | stop hn' _ _ => rw [Option.some.inj (hn.symm.trans hn')]
    | next hn' hc' hnext _ =>
      obtain rfl := Option.some.inj (hn.symm.trans hn')
      obtain rfl := Option.some.inj (hc.symm.trans hc')
      -- it stops here, so it does not go on
      rw [hnone] at hnext
      exact absurd hnext (by simp)
  | next hn hc hnext _ ih =>
    cases h' with
    | stop hn' hc' hnone =>
      obtain rfl := Option.some.inj (hn.symm.trans hn')
      obtain rfl := Option.some.inj (hc.symm.trans hc')
      rw [hnone] at hnext
      exact absurd hnext (by simp)
    | next hn' hc' hnext' htail =>
      obtain rfl := Option.some.inj (hn.symm.trans hn')
      obtain rfl := Option.some.inj (hc.symm.trans hc')
      obtain rfl := Option.some.inj (hnext.symm.trans hnext')
      rw [ih htail]

/-- From each definition on a chain the rest of the chain is left. -/
theorem Through.from (h : r.Through reference names c) (hn : n ∈ names) :
    ∃ rest, r.Through (Reference.toDefinition n) rest c ∧ rest.length ≤ names.length := by
  induction h with
  | stop hname hc hnone =>
    obtain rfl := List.mem_singleton.mp hn
    rw [← Reference.eq_toDefinition hname]
    exact ⟨_, .stop hname hc hnone, Nat.le_refl _⟩
  | next hname hc hnext htail ih =>
    rcases List.mem_cons.mp hn with rfl | hn
    · rw [← Reference.eq_toDefinition hname]
      exact ⟨_, .next hname hc hnext htail, Nat.le_refl _⟩
    · obtain ⟨rest, hrest, hlen⟩ := ih hn
      exact ⟨rest, hrest, Nat.le_succ_of_le hlen⟩

theorem Through.nodup (h : r.Through reference names c) : names.Nodup := by
  induction h with
  | stop _ _ _ => exact List.nodup_singleton _
  | @next reference n next names c d hname hc hnext htail ih =>
    refine List.nodup_cons.mpr ⟨fun hmem => ?_, ih⟩
    -- else the rest of the chain would be as long as the chain
    obtain ⟨rest, hrest, hlen⟩ := htail.from hmem
    rw [← Reference.eq_toDefinition hname] at hrest
    have hsame := (Through.next hname hc hnext htail).unique hrest
    rw [← hsame, List.length_cons] at hlen
    omega

theorem mem_keys_of_get? (h : r.get? n = some c) : n ∈ Assoc.keys r.definitions :=
  List.mem_map.mpr ⟨(n, c), Assoc.mem_of_lookup h, rfl⟩

theorem Through.mem_keys (h : r.Through reference names c) :
    ∀ n ∈ names, n ∈ Assoc.keys r.definitions := by
  induction h with
  | stop _ hc _ =>
    intro n hn
    obtain rfl := List.mem_singleton.mp hn
    exact mem_keys_of_get? hc
  | next _ hc _ _ ih =>
    intro n hn
    rcases List.mem_cons.mp hn with rfl | hn
    · exact mem_keys_of_get? hc
    · exact ih n hn

/-- A chain is no longer than there are definitions. -/
theorem Through.length_le (h : r.Through reference names c) :
    names.length ≤ r.definitions.length := by
  have hle := (List.subperm_of_subset h.nodup h.mem_keys).length_le
  rwa [Assoc.keys, List.length_map] at hle

theorem isLocal_of_name? (h : Reference.name? reference = some n) :
    Reference.isLocal reference = true := by
  have hhead : Reference.definitionsHead = "#/" ++ "definitions/" := rfl
  rw [Reference.eq_toDefinition h, Reference.toDefinition, hhead, String.append_assoc]
  exact Text.begins_append _ _

theorem lookup_of_name? (hn : Reference.name? reference = some n) (hc : r.get? n = some c) :
    r.lookup reference = .ok c := by
  unfold lookup
  rw [isLocal_of_name? hn, hn, Option.bind_some, hc]
  rfl

theorem followFrom_of_through (h : r.Through reference names c) :
    ∀ {start : String} {visited : List String} {steps : Nat},
    (∀ v ∈ visited, ∀ n, Reference.name? v = some n → n ∉ names) → names.length ≤ steps →
    r.followFrom start visited reference steps = .ok c := by
  induction h with
  | stop hn hc hnone =>
    intro start visited steps hvisited hsteps
    obtain ⟨steps, rfl⟩ : ∃ i, steps = i + 1 := Nat.exists_eq_add_of_le' hsteps
    -- the last name of the chain was not visited
    have hnew : ¬ visited.contains _ = true := fun hmem =>
      hvisited _ (List.contains_iff_mem.mp hmem) _ hn (List.mem_singleton_self _)
    unfold followFrom
    rw [if_neg hnew, lookup_of_name? hn hc]
    simp only [bind, Except.bind, hnone]
  | @next reference n next names c d hn hc hnext htail ih =>
    intro start visited steps hvisited hsteps
    -- a chain that ends passes no name twice, so the rest keeps off this one
    have hnodup := (Through.next hn hc hnext htail).nodup
    rw [List.length_cons] at hsteps
    obtain ⟨steps, rfl⟩ : ∃ i, steps = i + 1 :=
      Nat.exists_eq_add_of_le' (Nat.le_of_add_left_le hsteps)
    have hnew : ¬ visited.contains reference = true := fun hmem =>
      hvisited _ (List.contains_iff_mem.mp hmem) _ hn List.mem_cons_self
    unfold followFrom
    rw [if_neg hnew, lookup_of_name? hn hc]
    simp only [bind, Except.bind, hnext]
    refine ih (fun v hv m hm => ?_) (by omega)
    rcases List.mem_cons.mp hv with rfl | hv
    · obtain rfl := Option.some.inj (hn.symm.trans hm)
      exact (List.nodup_cons.mp hnodup).1
    · exact fun hmem => hvisited v hv m hm (List.mem_cons_of_mem _ hmem)

/-- **A chain that comes to an end is followed to it.** -/
theorem resolve_of_leads (h : r.Leads reference c) : r.resolve reference = .ok c := by
  obtain ⟨names, hnames⟩ := h.through
  have hlen := hnames.length_le
  exact followFrom_of_through hnames (fun _ hv => absurd hv List.not_mem_nil) (by omega)

/-- A chain has one end, the one that it is followed to. -/
theorem Leads.unique {d : Schema} (h : r.Leads reference c) (h' : r.Leads reference d) : c = d :=
  Except.ok.inj ((resolve_of_leads h).symm.trans (resolve_of_leads h'))

end Registry

/-- Every reference in the schema comes to an end. -/
def Schema.Grounded (r : Registry) (c : Schema) : Prop :=
  c.Everywhere fun t => ∀ reference, t.reference = some reference → ∃ d, r.Leads reference d

/-- Every reference in the definitions comes to an end. -/
def Registry.Grounded (r : Registry) : Prop := ∀ n c, r.get? n = some c → c.Grounded r

end KclModels
