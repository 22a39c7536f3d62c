import Mathlib.Data.List.Nodup
import Mathlib.Data.List.Perm.Subperm
import KclModels.Registry

/-!
# Registries only grow

A name that is given out is neither in use nor kept: of the numbered names that are tried there is
one more than there are names in use. So a definition that is made on the way never replaces
another, and what is known of a definition at one moment still holds at every later one.
-/

namespace KclModels

/-! ## Fresh names -/

theorem toString_toList_inj {i j : Nat} (h : (toString i).toList = (toString j).toList) :
    i = j := by
  rw [Nat.toString_eq_repr, Nat.toString_eq_repr, Nat.toList_repr, Nat.toList_repr] at h
  rw [← Nat.ofDigitChars_ten_toDigits (n := i), h, Nat.ofDigitChars_ten_toDigits]

theorem toString_ne_nil (i : Nat) : (toString i).toList ≠ [] := by
  intro h
  rw [Nat.toString_eq_repr, Nat.toList_repr] at h
  exact absurd h (List.ne_nil_of_length_pos Nat.length_toDigits_pos)

theorem numbered_injective (base : String) : Function.Injective (numbered base) := by
  intro i j h
  have hl := congrArg String.toList h
  unfold numbered at hl
  split at hl <;> split at hl
  · omega
  · rw [String.toList_append] at hl
    exact absurd (List.self_eq_append_right.mp hl) (toString_ne_nil j)
  · rw [String.toList_append] at hl
    exact absurd (List.self_eq_append_right.mp hl.symm) (toString_ne_nil i)
  · rw [String.toList_append, String.toList_append] at hl
    exact toString_toList_inj (List.append_cancel_left hl)

/-- **A fresh name is not in use**, when no more names are in use than the bound says. -/
theorem freshName_unused {used : String → Bool} {names : List String} {bound : Nat}
    (hused : ∀ n, used n = true → n ∈ names) (hlen : names.length ≤ bound) (base : String) :
    used (freshName used bound base) = false := by
  refine freshFrom_eq used base (bound + 1) 0 ?_
  by_contra hnone
  -- otherwise all the names that are tried are in use
  have hall : ∀ n ∈ (List.range (bound + 1)).map (numbered base), n ∈ names := by
    intro n hn
    obtain ⟨j, hj, rfl⟩ := List.mem_map.mp hn
    refine hused _ ?_
    by_contra hfree
    exact hnone ⟨j, Nat.zero_le _, by have := List.mem_range.mp hj; omega, by simpa using hfree⟩
  have hnodup : ((List.range (bound + 1)).map (numbered base)).Nodup :=
    List.Nodup.map (numbered_injective base) List.nodup_range
  have hle := (List.subperm_of_subset hnodup hall).length_le
  simp at hle
  omega

/-- A fresh name is the first of its row that is not in use. -/
theorem freshName_first (used : String → Bool) (bound : Nat) (base : String)
    (h : used (freshName used bound base) = false) : ∃ n,
      freshName used bound base = numbered base n ∧
        ∀ k < n, used (numbered base k) = true := by
  have hrow : ∀ tries i, (∃ n, freshFrom used base tries i = numbered base n ∧
      ∀ k, i ≤ k → k < n → used (numbered base k) = true) ∨
      freshFrom used base tries i = base ∧
        ∀ k, i ≤ k → k < i + tries → used (numbered base k) = true := by
    intro tries
    induction tries with
    | zero => exact fun i => Or.inr ⟨rfl, fun k hle hlt => by omega⟩
    | succ tries ih =>
      intro i
      have hnext : used (numbered base i) = true → ∀ k, i ≤ k →
          (i + 1 ≤ k → used (numbered base k) = true) → used (numbered base k) = true := by
        intro hi k hle hk
        rcases Nat.eq_or_lt_of_le hle with rfl | hlt
        · exact hi
        · exact hk hlt
      unfold freshFrom
      split
      · rename_i hi
        rcases ih (i + 1) with ⟨n, hn, hall⟩ | ⟨hbase, hall⟩
        · exact Or.inl ⟨n, hn, fun k hle hlt => hnext hi k hle fun hk => hall k hk hlt⟩
        · refine Or.inr ⟨hbase, fun k hle hlt => hnext hi k hle fun hk => hall k hk ?_⟩
          omega
      · exact Or.inl ⟨i, rfl, fun k hle hlt => by omega⟩
  rcases hrow (bound + 1) 0 with ⟨n, hn, hall⟩ | ⟨hbase, hall⟩
  · exact ⟨n, hn, fun k hlt => hall k (Nat.zero_le k) hlt⟩
  · -- where all that is tried is in use the name is the base, which was tried
    have hused := hall 0 (Nat.le_refl 0) (by omega)
    rw [freshName, hbase] at h
    rw [numbered, if_pos rfl, h] at hused
    exact absurd hused (by decide)

/-! ## Growth -/

namespace Registry

/-- The names of the definitions that were made are in use, and none was given out twice. -/
def Distinct (r : Registry) : Prop := r.hoisted.Nodup ∧ ∀ n ∈ r.hoisted, r.contains n = true

/-- `r'` has all that `r` has, and what was made since has new names. -/
structure Grows (r r' : Registry) : Prop where
  /-- Definitions stay as they are. -/
  keeps : ∀ n c, r.get? n = some c → r'.get? n = some c
  /-- Definitions that were made stay marked. -/
  hoisted : ∀ n ∈ r.hoisted, n ∈ r'.hoisted
  /-- Names that are in use stay in use. -/
  contains : ∀ n, r.contains n = true → r'.contains n = true
  /-- What was made since is a definition under a name that was free. -/
  made : ∀ n ∈ r'.hoisted, n ∈ r.hoisted ∨
    (r.contains n = false ∧ ∃ c, r'.get? n = some c)
  /-- No name is given out twice. -/
  distinct : r.Distinct → r'.Distinct

theorem Grows.refl (r : Registry) : r.Grows r where
  keeps _ _ h := h
  hoisted _ h := h
  contains _ h := h
  made _ h := Or.inl h
  distinct h := h

theorem Grows.trans {r₁ r₂ r₃ : Registry} (h : r₁.Grows r₂) (h' : r₂.Grows r₃) :
    r₁.Grows r₃ where
  keeps n c hc := h'.keeps n c (h.keeps n c hc)
  hoisted n hn := h'.hoisted n (h.hoisted n hn)
  contains n hn := h'.contains n (h.contains n hn)
  made := by
    intro n hn
    rcases h'.made n hn with h₂ | ⟨hfree, hc⟩
    · rcases h.made n h₂ with h₁ | ⟨hfree, c, hc⟩
      · exact Or.inl h₁
      · exact Or.inr ⟨hfree, c, h'.keeps n c hc⟩
    · refine Or.inr ⟨?_, hc⟩
      by_contra hused
      rw [h.contains n (by simpa using hused)] at hfree
      exact absurd hfree (by decide)
  distinct hd := h'.distinct (h.distinct hd)

theorem mem_of_contains {r : Registry} {n : String} (h : r.contains n = true) :
    n ∈ Assoc.keys r.definitions ++ r.reserved := by
  unfold contains Assoc.has at h
  rcases Bool.or_eq_true_iff.mp h with h | h
  · obtain ⟨c, hc⟩ := Option.isSome_iff_exists.mp h
    obtain ⟨l₁, l₂, heq, -⟩ := List.lookup_eq_some_iff.mp hc
    refine List.mem_append_left _ (List.mem_map.mpr ⟨(n, c), ?_, rfl⟩)
    rw [heq]
    simp
  · exact List.mem_append_right _ (by simpa using h)

/-- The name that `hoist` gives. -/
theorem hoist_fresh (r : Registry) (base : String) (c : Schema) :
    r.contains (r.hoist base c).1 = false :=
  freshName_unused (fun _ => mem_of_contains) (by simp [Assoc.keys, size]) base

theorem get?_hoist (r : Registry) (base : String) (c : Schema) (n : String) :
    (r.hoist base c).2.get? n = if n = (r.hoist base c).1 then some c else r.get? n :=
  Assoc.lookup_put _ _ _ _

theorem hoisted_hoist (r : Registry) (base : String) (c : Schema) :
    (r.hoist base c).2.hoisted = r.hoisted ++ [(r.hoist base c).1] := rfl

theorem get?_eq_none_of_free {r : Registry} {n : String} (h : r.contains n = false) :
    r.get? n = none := by
  unfold contains Assoc.has at h
  exact Option.isSome_eq_false_iff.mp (Bool.or_eq_false_iff.mp h).1 |> Option.isNone_iff_eq_none.mp

theorem contains_iff {r : Registry} {n : String} :
    r.contains n = true ↔ (r.get? n).isSome ∨ n ∈ r.reserved := by
  simp [contains, Assoc.has, get?]

/-- **Making a definition lets the registry grow.** -/
theorem hoist_grows (r : Registry) (base : String) (c : Schema) : r.Grows (r.hoist base c).2 := by
  have hfree := hoist_fresh r base c
  have hnone := get?_eq_none_of_free hfree
  -- a name in use stays in use: only the name that was made may leave the reserve
  have hcontains : ∀ n, r.contains n = true → (r.hoist base c).2.contains n = true := by
    intro n hn
    have hne : n ≠ (r.hoist base c).1 := by
      rintro rfl
      rw [hfree] at hn
      exact absurd hn (by decide)
    refine contains_iff.mpr ?_
    rw [get?_hoist, if_neg hne]
    refine (contains_iff.mp hn).imp_right fun hres => ?_
    exact (List.mem_erase_of_ne hne).mpr (Assoc.mem_insertName.mpr (Or.inr hres))
  refine ⟨?_, ?_, hcontains, ?_, ?_⟩
  · intro n d hd
    rw [get?_hoist, if_neg ?_]
    · exact hd
    · rintro rfl
      rw [hnone] at hd
      exact absurd hd (by simp)
  · intro n hn
    rw [hoisted_hoist]
    exact List.mem_append_left _ hn
  · intro n hn
    rw [hoisted_hoist] at hn
    rcases List.mem_append.mp hn with hn | hn
    · exact Or.inl hn
    · obtain rfl := List.mem_singleton.mp hn
      exact Or.inr ⟨hfree, c, by rw [get?_hoist, if_pos rfl]⟩
  · rintro ⟨hnodup, hused⟩
    rw [Distinct, hoisted_hoist]
    refine ⟨hnodup.append (List.nodup_singleton _) ?_, fun n hn => ?_⟩
    · intro n hn heq
      obtain rfl := List.mem_singleton.mp heq
      rw [hused _ hn] at hfree
      exact absurd hfree (by decide)
    · rcases List.mem_append.mp hn with hn | hn
      · exact hcontains n (hused n hn)
      · obtain rfl := List.mem_singleton.mp hn
        refine contains_iff.mpr (Or.inl ?_)
        rw [get?_hoist, if_pos rfl]
        rfl

end Registry

end KclModels

/-!
## Names given out one after the other

A registry is asked for names in two ways: for a name alone, which is then kept, and for a name
under which a schema becomes a definition, which is then in use. However the two are mixed, nothing
that was in use or kept becomes free again, so no name is given out twice.
-/

namespace KclModels.Registry

variable {r : Registry} {requests : List (String × Option Schema)} {base n : String} {c : Schema}

/-- Gives out a name; with a schema, the name becomes that of a definition. -/
def answer (r : Registry) (base : String) : Option Schema → String × Registry
  | none => r.allocate base
  | some c => r.hoist base c

/-- Gives out a name for each request, in order. -/
def answers (r : Registry) : List (String × Option Schema) → List String × Registry
  | [] => ([], r)
  | (base, c?) :: rest =>
    let (name, r) := r.answer base c?
    let (names, r) := r.answers rest
    (name :: names, r)

/-- The name that `allocate` gives. -/
theorem allocate_fresh (r : Registry) (base : String) : r.contains (r.allocate base).1 = false :=
  freshName_unused (fun _ => mem_of_contains) (by simp [Assoc.keys, size]) base

theorem contains_allocate (r : Registry) (base n : String) :
    (r.allocate base).2.contains n = true ↔ n = (r.allocate base).1 ∨ r.contains n = true := by
  rw [contains_iff, contains_iff]
  show _ ∨ n ∈ Assoc.insertName r.reserved (r.allocate base).1 ↔ _
  rw [Assoc.mem_insertName]
  exact or_left_comm

/-- **Giving out a name alone lets the registry grow**: the name is kept. -/
theorem allocate_grows (r : Registry) (base : String) : r.Grows (r.allocate base).2 where
  keeps _ _ hc := hc
  hoisted _ hn := hn
  contains n hn := (contains_allocate r base n).mpr (Or.inr hn)
  made _ hn := Or.inl hn
  distinct h := ⟨h.1, fun n hn => (contains_allocate r base n).mpr (Or.inr (h.2 n hn))⟩

/-- A name that is given out was free. -/
theorem answer_fresh (r : Registry) (base : String) (c? : Option Schema) :
    r.contains (r.answer base c?).1 = false := by
  cases c? with
  | none => exact allocate_fresh r base
  | some c => exact hoist_fresh r base c

theorem answer_grows (r : Registry) (base : String) (c? : Option Schema) :
    r.Grows (r.answer base c?).2 := by
  cases c? with
  | none => exact allocate_grows r base
  | some c => exact hoist_grows r base c

/-- A name that was given out is no longer free. -/
theorem contains_answer (r : Registry) (base : String) (c? : Option Schema) :
    (r.answer base c?).2.contains (r.answer base c?).1 = true := by
  cases c? with
  | none => exact (contains_allocate r base _).mpr (Or.inl rfl)
  | some c =>
    refine contains_iff.mpr (Or.inl ?_)
    rw [answer, get?_hoist, if_pos rfl]
    rfl

/-- A registry has what it had before, and all names that were given out are in use or kept. -/
theorem answers_grows (requests : List (String × Option Schema)) : ∀ r : Registry,
    r.Grows (r.answers requests).2 ∧
      ∀ n ∈ (r.answers requests).1, (r.answers requests).2.contains n = true := by
  induction requests with
  | nil => exact fun r => ⟨.refl r, fun n hn => absurd hn List.not_mem_nil⟩
  | cons request rest ih =>
    intro r
    obtain ⟨base, c?⟩ := request
    obtain ⟨hgrows, hused⟩ := ih (r.answer base c?).2
    refine ⟨(answer_grows r base c?).trans hgrows, fun n hn => ?_⟩
    rcases List.mem_cons.mp hn with rfl | hn
    · exact hgrows.contains _ (contains_answer r base c?)
    · exact hused n hn

/-- Names that are free are none of these. -/
theorem not_mem_of_free {names : List String} (hn : r.contains n = false)
    (h : ∀ m ∈ names, r.contains m = true) : n ∉ names := by
  intro hmem
  rw [h n hmem] at hn
  exact absurd hn (by decide)

/--
The name `n`, which was given out last and left `r₂`, is new: `names` were given out before it, and
took the registry from `r` to `r₁`.
-/
structure New (r : Registry) (names : List String) (r₁ : Registry) (n : String) (r₂ : Registry) :
    Prop where
  undefined : r₁.get? n = none
  unreserved : n ∉ r₁.reserved
  unreservedBefore : n ∉ r.reserved
  notGiven : n ∉ names
  keeps : ∀ m c, r₁.get? m = some c → r₂.get? m = some c

/--
**The next name is new**, whatever was asked for before: it is not that of a definition, not kept,
then or at first, and was not given out. All definitions stay as they are.
-/
theorem next_name_new (r : Registry) (earlier : List (String × Option Schema)) (base : String)
    (c? : Option Schema) :
    New r (r.answers earlier).1 (r.answers earlier).2 ((r.answers earlier).2.answer base c?).1
      ((r.answers earlier).2.answer base c?).2 := by
  obtain ⟨hgrows, hused⟩ := answers_grows earlier r
  have hfree := answer_fresh (r.answers earlier).2 base c?
  refine ⟨get?_eq_none_of_free hfree, not_mem_of_free hfree fun m hm => ?_,
    not_mem_of_free hfree fun m hm => ?_, not_mem_of_free hfree hused,
    (answer_grows _ base c?).keeps⟩
  · exact contains_iff.mpr (Or.inr hm)
  · exact hgrows.contains m (contains_iff.mpr (Or.inr hm))

end KclModels.Registry
