/-!
# Fresh names

The first name of the row `base`, `base1`, `base2`, … that is not in use.
-/

namespace KclModels

/-- The name numbered `i` in the row that starts with `base`. -/
def numbered (base : String) (i : Nat) : String :=
  if i = 0 then base else base ++ toString i

/-- The first free name of the row from number `i` on, looking at no more than `tries` of them. -/
def freshFrom (used : String → Bool) (base : String) : (tries i : Nat) → String
  | 0, _ => base
  | tries + 1, i =>
    if used (numbered base i) then freshFrom used base tries (i + 1) else numbered base i

/--
The first free name of the row. When no more than `bound` names are in use, one of the first
`bound + 1` names of the row is free, so the search does not run out.
-/
def freshName (used : String → Bool) (bound : Nat) (base : String) : String :=
  freshFrom used base (bound + 1) 0

theorem freshFrom_eq (used : String → Bool) (base : String) :
    ∀ tries i, (∃ j, i ≤ j ∧ j < i + tries ∧ used (numbered base j) = false) →
      used (freshFrom used base tries i) = false := by
  intro tries
  induction tries with
  | zero => intro i ⟨j, h₁, h₂, _⟩; omega
  | succ tries ih =>
    intro i ⟨j, h₁, h₂, hj⟩
    unfold freshFrom
    split
    · rename_i hu
      refine ih (i + 1) ⟨j, ?_, by omega, hj⟩
      rcases Nat.eq_or_lt_of_le h₁ with rfl | h
      · rw [hj] at hu; exact absurd hu (by decide)
      · exact h
    · rename_i hu
      simpa using hu

end KclModels
