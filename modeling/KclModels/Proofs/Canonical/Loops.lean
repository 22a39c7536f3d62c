import KclModels.Proofs.Registry.Walks
import KclModels.Proofs.Run.Accounted
import KclModels.Proofs.Schema.Composition

/-!
# Loops made of references only

Two walkers go along references. One starts at a definition, goes by the names of definitions and
refuses the document when it meets a name again; the other starts at a reference, goes by references
and is asked for one chain at a time. Where every reference names a definition both tell the same
chains apart: those that end at a schema that is no reference, and those that never do.
-/

namespace KclModels

open Relation

namespace Registry

variable {r : Registry} {x n : String} {names : List String} {d : Schema}

/-- What a chain goes through can be referred to. -/
theorem Through.name?_of_mem (h : r.Through x names d) (hn : n ∈ names) :
    Reference.name? (Reference.toDefinition n) = some n := by
  induction h with
  | stop hname _ _ =>
    obtain rfl := List.mem_singleton.mp hn
    rw [← Reference.eq_toDefinition hname]
    exact hname
  | next hname _ _ _ ih =>
    rcases List.mem_cons.mp hn with rfl | hn
    · rw [← Reference.eq_toDefinition hname]
      exact hname
    · exact ih hn

end Registry

namespace Canonical

variable {definitions : Definitions} {n x : String} {c d : Schema}

/-! ## One definition -/

/-- Where every reference names a definition, a chain that is not found to loop comes to an end. -/
theorem ends_of_loops (hc : definitions.Canonical) {steps : Nat} : ∀ {visited : List String}
    {n : String} {c : Schema}, definitions.lookup n = some c →
    loops definitions visited c steps = false → ∃ d, definitions.Ends c d := by
  induction steps with
  | zero =>
    intro visited n c _ h
    simp [loops] at h
  | succ steps ih =>
    intro visited n c hget h
    cases href : c.reference with
    | none => exact ⟨c, .here href⟩
    | some reference =>
      obtain ⟨m, hm, hhas⟩ := (hc n c hget).here reference href
      obtain ⟨target, htarget⟩ := Option.isSome_iff_exists.mp hhas
      have hname : c.referenceName = some m := Schema.referenceName_eq href hm
      unfold loops at h
      simp only [hname, htarget] at h
      split at h
      · simp at h
      · obtain ⟨d, hd⟩ := ih htarget h
        exact ⟨d, .next href hm htarget hd⟩

/-- No loop is found along a chain that ends, if it keeps off what was visited. -/
theorem loops_of_through {r : Registry} {names : List String} (h : r.Through x names d) :
    ∀ {visited : List String} {c : Schema} {steps : Nat}, c.reference = some x →
    (∀ n ∈ names, n ∉ visited) → names.length < steps →
    loops r.definitions visited c steps = false := by
  induction h with
  | @stop x n target hn hget hnone =>
    intro visited c steps href hnew hsteps
    rw [List.length_singleton] at hsteps
    obtain ⟨steps, rfl⟩ : ∃ i, steps = i + 2 := Nat.exists_eq_add_of_le' hsteps
    have hmem : ¬ visited.contains n = true := fun hcontains =>
      hnew n List.mem_cons_self (List.contains_iff_mem.mp hcontains)
    -- the chain stops here, and the steps suffice to see that
    have hlast : target.referenceName = none := Schema.referenceName_eq_none hnone
    unfold loops
    simp only [Schema.referenceName_eq href hn, if_neg hmem, show r.definitions.lookup n = some target from hget]
    unfold loops
    simp only [hlast]
  | @next x n y names target d hn hget hnext htail ih =>
    intro visited c steps href hnew hsteps
    -- a chain that ends never meets a name again
    have hnodup := (Registry.Through.next hn hget hnext htail).nodup
    rw [List.length_cons] at hsteps
    obtain ⟨steps, rfl⟩ : ∃ i, steps = i + 1 := Nat.exists_eq_add_of_le' (by omega)
    have hmem : ¬ visited.contains n = true := fun hcontains =>
      hnew n List.mem_cons_self (List.contains_iff_mem.mp hcontains)
    unfold loops
    simp only [Schema.referenceName_eq href hn, if_neg hmem, show r.definitions.lookup n = some target from hget]
    refine ih hnext (fun m hm hvisited => ?_) (by omega)
    rcases List.mem_cons.mp hvisited with rfl | hvisited
    · exact (List.nodup_cons.mp hnodup).1 hm
    · exact hnew m (List.mem_cons_of_mem _ hm) hvisited

/-- What the references of a schema end at is what following them leads to. -/
theorem leads_of_ends {reference : String} (h : definitions.Ends c d)
    (href : c.reference = some reference) :
    (Registry.ofDefinitions definitions).Leads reference d :=
  h.leads (r := Registry.ofDefinitions definitions) (fun _ _ hget => hget) href

/-- **A definition is found in no loop just if its chain of references comes to an end.** -/
theorem loops_eq_false_iff (hc : definitions.Canonical) (hget : definitions.lookup n = some c) :
    loops definitions [n] c (definitions.length + 1) = false ↔ ∃ d, definitions.Ends c d := by
  refine ⟨ends_of_loops hc hget, ?_⟩
  rintro ⟨d, hd⟩
  cases href : c.reference with
  | none =>
    unfold loops
    simp only [Schema.referenceName_eq_none href]
  | some reference =>
    have hstored : (Registry.ofDefinitions definitions).get? n = some c := hget
    obtain ⟨names, hnames⟩ := (leads_of_ends hd href).through
    refine loops_of_through hnames href (fun m hm hstart => ?_) ?_
    · -- else the chain would go through the definition that it starts from
      obtain rfl := List.mem_singleton.mp hstart
      have hwhole := Registry.Through.next (hnames.name?_of_mem hm) hstored href hnames
      exact (List.nodup_cons.mp hwhole.nodup).1 hm
    · exact Nat.lt_succ_of_le hnames.length_le

/-! ## All definitions -/

/-- The check finds nothing, or it finds a definition in a loop. -/
theorem checkLoops_cases (definitions : Definitions) :
    checkLoops definitions = .ok () ∨
      ∃ n, checkLoops definitions = .error (.cyclic (Reference.toDefinition n)) := by
  unfold checkLoops
  split
  · exact Or.inr ⟨_, rfl⟩
  · exact Or.inl rfl

/-- The check succeeds if every chain of references comes to an end. -/
theorem checkLoops_ok_iff (hkeys : (Assoc.keys definitions).Nodup) (hc : definitions.Canonical) :
    checkLoops definitions = .ok () ↔
      ∀ n c, definitions.lookup n = some c → ∃ d, definitions.Ends c d := by
  unfold checkLoops
  constructor
  · intro h n c hget
    split at h
    · simp at h
    · rename_i hnone
      have hnot := List.find?_eq_none.mp hnone (n, c) (Assoc.mem_of_lookup hget)
      exact (loops_eq_false_iff hc hget).mp (by simpa using hnot)
  · intro h
    have hnone : definitions.find?
        (fun e => loops definitions [e.1] e.2 (definitions.length + 1)) = none := by
      refine List.find?_eq_none.mpr fun e he => ?_
      have hget := Assoc.lookup_of_mem hkeys he
      simpa using (loops_eq_false_iff hc hget).mpr (h e.1 e.2 hget)
    rw [hnone]

/-- Every chain comes to an end if those do that start with a reference to a definition. -/
theorem ends_iff_resolve (hc : definitions.Canonical) :
    (∀ n c, definitions.lookup n = some c → ∃ d, definitions.Ends c d) ↔
      ∀ n ∈ Assoc.keys definitions,
        Reference.name? (Reference.toDefinition n) = some n →
        ∃ d, (Registry.ofDefinitions definitions).resolve (Reference.toDefinition n) = .ok d := by
  constructor
  · intro h n hn hname
    obtain ⟨c, hget⟩ := Option.isSome_iff_exists.mp (Assoc.has_iff_mem_keys.mpr hn)
    obtain ⟨d, hd⟩ := h n c hget
    refine ⟨d, Registry.resolve_of_leads ?_⟩
    cases href : c.reference with
    | none =>
      obtain rfl := hd.of_inline href
      exact .stop hname hget href
    | some reference => exact .next hname hget href (leads_of_ends hd href)
  · intro h n c hget
    cases href : c.reference with
    | none => exact ⟨c, .here href⟩
    | some reference =>
      -- the definition may have a name that cannot be referred to, but not the one it refers to
      obtain ⟨m, hm, hhas⟩ := (hc n c hget).here reference href
      obtain rfl := Reference.eq_toDefinition hm
      obtain ⟨d, hd⟩ := h m (Assoc.has_iff_mem_keys.mp hhas) hm
      exact ⟨d, Definitions.ends_of_leads (r := Registry.ofDefinitions definitions)
        (fun _ _ hget => hget) (Registry.resolve_leads hd) href⟩

/--
**The check for loops and the following of references agree.** Where every reference names a
definition, the check succeeds if the reference to each definition that can be referred to resolves;
it fails, and for a loop, if the references of some definition come to no end. What resolving gives
or reports is said by the chain of references alone, in any registry.
-/
theorem checkLoops_agrees_with_resolve (hkeys : (Assoc.keys definitions).Nodup)
    (hc : definitions.Canonical) :
    (checkLoops definitions = .ok () ↔
      ∀ n ∈ Assoc.keys definitions, Reference.name? (Reference.toDefinition n) = some n →
        ∃ d, (Registry.ofDefinitions definitions).resolve (Reference.toDefinition n) = .ok d) ∧
    ((∃ x, checkLoops definitions = .error (.cyclic x)) ↔
      ∃ n c, definitions.lookup n = some c ∧ ¬ ∃ d, definitions.Ends c d) ∧
    ∀ (r : Registry) (x : String), r.Reports x := by
  have hok := checkLoops_ok_iff hkeys hc
  refine ⟨hok.trans (ends_iff_resolve hc), ?_, Registry.resolve_reports⟩
  constructor
  · rintro ⟨x, hx⟩
    by_contra hno
    push Not at hno
    rw [hok.mpr hno] at hx
    exact absurd hx (by simp)
  · rintro ⟨n, c, hget, hno⟩
    rcases checkLoops_cases definitions with h | ⟨m, hm⟩
    · exact absurd (hok.mp h n c hget) hno
    · exact ⟨_, hm⟩

/-- An amount under two further names; one of them cannot be referred to. -/
def prices : Definitions := [
  ("Amount", .typed "number"),
  ("Price", .referenceTo "Amount"),
  ("price/net", .referenceTo "Price")]

/-- Two definitions that are nothing but references to each other, and one that leads to them. -/
def shifts : Definitions := [
  ("Start", .referenceTo "Day"),
  ("Day", .referenceTo "Night"),
  ("Night", .referenceTo "Day")]

theorem prices_and_shifts :
    ((Assoc.keys prices).Nodup ∧ prices.Canonical ∧ checkLoops prices = .ok () ∧
      ∃ d, (Registry.ofDefinitions prices).resolve "#/definitions/Price" = .ok d) ∧
    ((Assoc.keys shifts).Nodup ∧ shifts.Canonical ∧
      checkLoops shifts = .error (.cyclic "#/definitions/Start") ∧
      (∃ n c, shifts.lookup n = some c ∧ ¬ ∃ d, shifts.Ends c d) ∧
      ∃ y, (Registry.ofDefinitions shifts).Meets "#/definitions/Start" y ∧
        TransGen (Registry.ofDefinitions shifts).Next y y) := by
  have hprices : prices.Canonical := Definitions.canonical_of_check (by decide +kernel)
  have hshifts : shifts.Canonical := Definitions.canonical_of_check (by decide +kernel)
  have hfound : checkLoops shifts = .error (.cyclic "#/definitions/Start") := by decide +kernel
  obtain ⟨hok, -, -⟩ := checkLoops_agrees_with_resolve (by decide) hprices
  obtain ⟨-, hloop, hreports⟩ := checkLoops_agrees_with_resolve (by decide) hshifts
  have hcyclic : (Registry.ofDefinitions shifts).resolve "#/definitions/Start" =
      .error (.cyclic "#/definitions/Start") :=
    Registry.resolve_eq_iff.mpr (.loop (y := "#/definitions/Day")
      (.single ⟨_, rfl, rfl⟩) (.head ⟨_, rfl, rfl⟩ (.single ⟨_, rfl, rfl⟩)))
  refine ⟨⟨by decide, hprices, by decide +kernel, ?_⟩, by decide, hshifts, hfound,
    hloop.mp ⟨_, hfound⟩, ?_⟩
  · exact hok.mp (by decide +kernel) "Price" (by decide) (by decide +kernel)
  · exact (((hreports _ _).cyclic _).mp hcyclic).2

end Canonical

end KclModels
