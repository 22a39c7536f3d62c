import Mathlib.Logic.Relation
import KclModels.Proofs.Registry.Grounded

/-!
# What becomes of a chain of references

References are followed with a limit on the steps and with a list of those that were gone through.
Neither is needed to say what is found. From each reference there is at most one way on, so a chain
does one of three things: it stops at a schema that is no reference, it meets a reference that leads
nowhere, or it goes through one of its references again (`ComesTo`).

The limit is never met. The references that are gone through name definitions, each another one, so
there are no more of them than definitions.
-/

namespace KclModels.Registry

open Relation

variable {r : Registry} {start x y z : String} {refs visited : List String} {c : Schema}
variable {e : ReferenceError} {out out' : Except ReferenceError Schema}

/-! ## Following without a limit -/

/-- References that were gone through: each names a definition, and none is met twice. -/
structure Entered (r : Registry) (refs : List String) : Prop where
  distinct : refs.Nodup
  named : ∀ x ∈ refs, ∃ n, Reference.name? x = some n ∧ n ∈ Assoc.keys r.definitions

theorem entered_nil (r : Registry) : r.Entered [] :=
  ⟨List.nodup_nil, fun _ h => absurd h List.not_mem_nil⟩

theorem Entered.cons (h : r.Entered refs) (hnew : x ∉ refs) (hx : r.lookup x = .ok c) :
    r.Entered (x :: refs) := by
  obtain ⟨n, hn, hc⟩ := lookup_ok hx
  refine ⟨List.nodup_cons.mpr ⟨hnew, h.distinct⟩, ?_⟩
  intro y hy
  rcases List.mem_cons.mp hy with heq | hy
  · exact ⟨n, heq ▸ hn, mem_keys_of_get? hc⟩
  · exact h.named y hy

/-- **No more references are gone through than there are definitions.** -/
theorem Entered.length_le (h : r.Entered refs) : refs.length ≤ r.definitions.length := by
  -- each of them is the reference to the definition that it names
  have hsub : ∀ x ∈ refs, x ∈ (Assoc.keys r.definitions).map Reference.toDefinition := by
    intro x hx
    obtain ⟨n, hn, hkey⟩ := h.named x hx
    exact List.mem_map.mpr ⟨n, hkey, (Reference.eq_toDefinition hn).symm⟩
  have hle := (List.subperm_of_subset h.distinct hsub).length_le
  simpa [Assoc.keys] using hle

/-- How references are followed from `start`, with those of `visited` gone through already. -/
inductive Walks (r : Registry) (start : String) :
    List String → String → Except ReferenceError Schema → Prop
  | again {visited : List String} {x : String} : x ∈ visited →
      Walks r start visited x (.error (.cyclic start))
  | lost {visited : List String} {x : String} {e : ReferenceError} : x ∉ visited →
      r.lookup x = .error e → Walks r start visited x (.error e)
  | stop {visited : List String} {x : String} {c : Schema} : x ∉ visited → r.lookup x = .ok c →
      c.reference = none → Walks r start visited x (.ok c)
  | next {visited : List String} {x y : String} {c : Schema} {out : Except ReferenceError Schema} :
      x ∉ visited → r.lookup x = .ok c → c.reference = some y →
      Walks r start (x :: visited) y out → Walks r start visited x out

/-- With enough steps left, following goes as it would without a limit. -/
theorem followFrom_walks {steps : Nat} (h : r.Entered visited)
    (hsteps : r.definitions.length < visited.length + steps) :
    r.Walks start visited x (r.followFrom start visited x steps) := by
  induction steps generalizing visited x with
  | zero =>
    -- more references would have been gone through than there are definitions
    have hle := h.length_le
    omega
  | succ steps ih =>
    unfold followFrom
    by_cases hmem : x ∈ visited
    · rw [if_pos (List.contains_iff_mem.mpr hmem)]
      exact .again hmem
    · rw [if_neg fun hcontains => hmem (List.contains_iff_mem.mp hcontains)]
      cases hx : r.lookup x with
      | error e => exact .lost hmem hx
      | ok c =>
        simp only [bind, Except.bind]
        cases hnext : c.reference with
        | none => exact .stop hmem hx hnext
        | some y =>
          have hlen : r.definitions.length < (x :: visited).length + steps := by
            rw [List.length_cons]
            omega
          exact .next hmem hx hnext (ih (h.cons hmem hx) hlen)

/-- The limit that references are followed with is never met. -/
theorem resolve_walks (r : Registry) (x : String) : r.Walks x [] x (r.resolve x) :=
  followFrom_walks (entered_nil r) (by rw [List.length_nil]; omega)

/-! ## The chain of references -/

/-- The definition that `x` names is a reference, to `y`. -/
def Next (r : Registry) (x y : String) : Prop := ∃ c, r.lookup x = .ok c ∧ c.reference = some y

/-- The chain of references that starts with `x` goes through `y`. -/
def Meets (r : Registry) : String → String → Prop := ReflTransGen r.Next

/-- There is at most one way on from a reference. -/
theorem next_unique (r : Registry) : Relator.RightUnique r.Next := by
  rintro x y z ⟨c, hc, hy⟩ ⟨d, hd, hz⟩
  obtain rfl := Except.ok.inj (hc.symm.trans hd)
  exact Option.some.inj (hy.symm.trans hz)

theorem not_next_of_stop (hc : r.lookup x = .ok c) (hnone : c.reference = none) :
    ¬ r.Next x y := by
  rintro ⟨d, hd, hy⟩
  obtain rfl := Except.ok.inj (hc.symm.trans hd)
  rw [hnone] at hy
  exact absurd hy (by simp)

theorem not_next_of_lost (he : r.lookup x = .error e) : ¬ r.Next x y := by
  rintro ⟨d, hd, -⟩
  rw [he] at hd
  exact absurd hd (by simp)

/-- A chain has one last reference. -/
theorem Meets.eq_of_last (hy : r.Meets x y) (hz : r.Meets x z) (hlasty : ∀ w, ¬ r.Next y w)
    (hlastz : ∀ w, ¬ r.Next z w) : y = z := by
  rcases ReflTransGen.total_of_right_unique r.next_unique hy hz with h | h
  · rcases ReflTransGen.cases_head h with heq | ⟨w, hw, -⟩
    · exact heq
    · exact absurd hw (hlasty w)
  · rcases ReflTransGen.cases_head h with heq | ⟨w, hw, -⟩
    · exact heq.symm
    · exact absurd hw (hlastz w)

/-- A chain that goes through a reference again has no last one. -/
theorem Meets.exists_next_of_loop (hy : r.Meets x y) (hloop : TransGen r.Next y y)
    (hz : r.Meets x z) : ∃ w, r.Next z w := by
  -- all that comes after a reference on a loop is on the loop
  have hstays : ∀ z, ReflTransGen r.Next y z → TransGen r.Next z z := by
    intro z hz
    induction hz with
    | refl => exact hloop
    | tail _ hnext ih =>
      obtain ⟨w, hw, hback⟩ := TransGen.head'_iff.mp ih
      obtain rfl := r.next_unique hw hnext
      exact .tail' hback hnext
  rcases ReflTransGen.total_of_right_unique r.next_unique hy hz with h | h
  · obtain ⟨w, hw, -⟩ := TransGen.head'_iff.mp (hstays z h)
    exact ⟨w, hw⟩
  · rcases ReflTransGen.cases_head h with rfl | ⟨w, hw, -⟩
    · obtain ⟨w, hw, -⟩ := TransGen.head'_iff.mp hloop
      exact ⟨w, hw⟩
    · exact ⟨w, hw⟩

/-- What the chain from `x` comes to, when references are followed from `start`. -/
inductive ComesTo (r : Registry) (start x : String) : Except ReferenceError Schema → Prop
  | target {y : String} {c : Schema} : r.Meets x y → r.lookup y = .ok c → c.reference = none →
      ComesTo r start x (.ok c)
  | loop {y : String} : r.Meets x y → TransGen r.Next y y →
      ComesTo r start x (.error (.cyclic start))
  | nowhere {y : String} {e : ReferenceError} : r.Meets x y → r.lookup y = .error e →
      ComesTo r start x (.error e)

theorem ComesTo.head (hnext : r.Next x y) (h : r.ComesTo start y out) : r.ComesTo start x out := by
  cases h with
  | target hy hc hnone => exact .target (.head hnext hy) hc hnone
  | loop hy hloop => exact .loop (.head hnext hy) hloop
  | nowhere hy he => exact .nowhere (.head hnext hy) he

/-- Whoever follows references finds what the chain comes to. -/
theorem Walks.comesTo (h : r.Walks start visited x out)
    (hvisited : ∀ v ∈ visited, TransGen r.Next v x) : r.ComesTo start x out := by
  induction h with
  | again hmem => exact .loop .refl (hvisited _ hmem)
  | lost _ he => exact .nowhere .refl he
  | stop _ hc hnone => exact .target .refl hc hnone
  | @next visited x y c out _ hc hnext _ ih =>
    have hstep : r.Next x y := ⟨c, hc, hnext⟩
    refine .head hstep (ih fun v hv => ?_)
    rcases List.mem_cons.mp hv with rfl | hv
    · exact .single hstep
    · exact (hvisited v hv).tail hstep

/-- A chain comes to one thing only. -/
theorem ComesTo.unique (h : r.ComesTo start x out) (h' : r.ComesTo start x out') : out = out' := by
  have hstop : ∀ {y c}, r.lookup y = .ok c → c.reference = none → ∀ w, ¬ r.Next y w :=
    fun hc hnone _ => not_next_of_stop hc hnone
  have hlost : ∀ {y e}, r.lookup y = .error e → ∀ w, ¬ r.Next y w :=
    fun he _ => not_next_of_lost he
  -- a walk on a loop goes on, so it neither stops nor is lost; two ends are the same end
  cases h with
  | target hy hc hnone =>
    cases h' with
    | target hz hd hnone' =>
      obtain rfl := hy.eq_of_last hz (hstop hc hnone) (hstop hd hnone')
      exact hc.symm.trans hd
    | loop hz hloop =>
      obtain ⟨w, hw⟩ := hz.exists_next_of_loop hloop hy
      exact absurd hw (hstop hc hnone w)
    | nowhere hz he =>
      obtain rfl := hy.eq_of_last hz (hstop hc hnone) (hlost he)
      exact hc.symm.trans he
  | loop hy hloop =>
    cases h' with
    | target hz hd hnone =>
      obtain ⟨w, hw⟩ := hy.exists_next_of_loop hloop hz
      exact absurd hw (hstop hd hnone w)
    | loop _ _ => rfl
    | nowhere hz he =>
      obtain ⟨w, hw⟩ := hy.exists_next_of_loop hloop hz
      exact absurd hw (hlost he w)
  | nowhere hy he =>
    cases h' with
    | target hz hd hnone =>
      obtain rfl := hy.eq_of_last hz (hlost he) (hstop hd hnone)
      exact he.symm.trans hd
    | loop hz hloop =>
      obtain ⟨w, hw⟩ := hz.exists_next_of_loop hloop hy
      exact absurd hw (hlost he w)
    | nowhere hz he' =>
      obtain rfl := hy.eq_of_last hz (hlost he) (hlost he')
      exact he.symm.trans he'

/-- **A reference resolves to what its chain comes to.** -/
theorem resolve_eq_iff : r.resolve x = out ↔ r.ComesTo x x out := by
  have hfound := (resolve_walks r x).comesTo fun _ hv => absurd hv List.not_mem_nil
  constructor
  · rintro rfl
    exact hfound
  · exact hfound.unique

theorem walks_iff : r.Walks x [] x out ↔ r.resolve x = out := by
  constructor
  · intro h
    exact resolve_eq_iff.mpr (h.comesTo fun _ hv => absurd hv List.not_mem_nil)
  · rintro rfl
    exact resolve_walks r x

/-! ## What is reported -/

/-- A reference leads nowhere if it points out of the document, or if it names no definition. -/
theorem lookup_error_iff : r.lookup x = .error e ↔
    (Reference.isLocal x = false ∧ e = .remote x) ∨
    (Reference.isLocal x = true ∧ (∀ n, Reference.name? x = some n → r.get? n = none) ∧
      e = .unresolved x) := by
  unfold lookup
  by_cases hlocal : Reference.isLocal x = true
  · simp only [hlocal, Bool.not_true, Bool.false_eq_true, if_false, Bool.true_eq_false, false_and,
      true_and, false_or]
    cases hn : Reference.name? x with
    | none => simp [eq_comm]
    | some n => cases hc : r.get? n <;> simp [hc, eq_comm]
  · rw [Bool.not_eq_true] at hlocal
    simp [hlocal, eq_comm]

/-- What resolving a reference gives or reports, said by the chain that starts with it. -/
structure Reports (r : Registry) (x : String) : Prop where
  /-- The schema is the one at the end of the chain, and no reference. -/
  target : ∀ c, r.resolve x = .ok c ↔
    ∃ y, r.Meets x y ∧ r.lookup y = .ok c ∧ c.reference = none
  /-- A loop is reported, as one from `x` on, if the chain goes through a reference again. -/
  cyclic : ∀ y, r.resolve x = .error (.cyclic y) ↔
    y = x ∧ ∃ z, r.Meets x z ∧ TransGen r.Next z z
  /-- A reference is reported as remote if the chain meets it and it points out of the document. -/
  remote : ∀ y, r.resolve x = .error (.remote y) ↔ r.Meets x y ∧ Reference.isLocal y = false
  /-- It is reported as unresolved if it points into the document, where no definition has it. -/
  unresolved : ∀ y, r.resolve x = .error (.unresolved y) ↔
    r.Meets x y ∧ Reference.isLocal y = true ∧
      ∀ n, Reference.name? y = some n → r.get? n = none

theorem resolve_reports (r : Registry) (x : String) : r.Reports x where
  target c := by
    rw [resolve_eq_iff]
    constructor
    · rintro ⟨hy, hc, hnone⟩
      exact ⟨_, hy, hc, hnone⟩
    · rintro ⟨y, hy, hc, hnone⟩
      exact .target hy hc hnone
  cyclic y := by
    rw [resolve_eq_iff]
    constructor
    · intro h
      cases h with
      | loop hz hloop => exact ⟨rfl, _, hz, hloop⟩
      | nowhere hz he =>
        -- a lookup does not report a loop
        rcases lookup_error_iff.mp he with ⟨-, heq⟩ | ⟨-, -, heq⟩ <;> exact absurd heq (by simp)
    · rintro ⟨rfl, z, hz, hloop⟩
      exact .loop hz hloop
  remote y := by
    rw [resolve_eq_iff]
    constructor
    · intro h
      cases h with
      | nowhere hz he =>
        rcases lookup_error_iff.mp he with ⟨hremote, heq⟩ | ⟨-, -, heq⟩
        · obtain rfl := ReferenceError.remote.inj heq
          exact ⟨hz, hremote⟩
        · exact absurd heq (by simp)
    · rintro ⟨hy, hremote⟩
      exact .nowhere hy (lookup_error_iff.mpr (.inl ⟨hremote, rfl⟩))
  unresolved y := by
    rw [resolve_eq_iff]
    constructor
    · intro h
      cases h with
      | nowhere hz he =>
        rcases lookup_error_iff.mp he with ⟨-, heq⟩ | ⟨hlocal, hnone, heq⟩
        · exact absurd heq (by simp)
        · obtain rfl := ReferenceError.unresolved.inj heq
          exact ⟨hz, hlocal, hnone⟩
    · rintro ⟨hy, hlocal, hnone⟩
      exact .nowhere hy (lookup_error_iff.mpr (.inr ⟨hlocal, hnone, rfl⟩))

end KclModels.Registry
