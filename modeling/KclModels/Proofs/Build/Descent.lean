import Mathlib.Tactic.ByContra
import Mathlib.Tactic.SplitIfs
import KclModels.Build.Schema
import KclModels.Proofs.Schema.Size

/-!
# How building descends

Most frames that are built below a frame hold a smaller schema, but not all: a schema may be built
again once it has a name, once its elements are a reference, or, where a definition is a reference,
once more as a branch without a name. So the size alone does not go down. `Below` lists the frames
that a step builds, and `rank` goes down along it: it counts four times the size, and beside it what
can still happen to a schema of that size. A place without a name comes before the same place with
one, and elements that are no reference come before elements that are.

The one thing that breaks this is a reference with a schema for further values beside it. Without a
name it becomes a definition, a definition that is a reference is built as a branch, and that has no
name. Schemas in which every reference is `Lone` do not have this.
-/

namespace KclModels

/-- The schema is not a reference with a schema for further values beside it. -/
def Schema.Lone (c : Schema) : Prop :=
  c.reference.isSome = true → ∀ v, c.additionalProperties ≠ some (.schema v)

/-- No reference in the schema has a schema for further values beside it. -/
def Schema.Unextended (c : Schema) : Prop := c.Everywhere Schema.Lone

namespace Frame

variable {f g : Frame}

/-- The frame is that of a definition that is a reference. -/
def Refers (f : Frame) : Prop := f.named = true ∧ f.schema.reference.isSome = true

instance : Decidable f.Refers := inferInstanceAs (Decidable (_ ∧ _))

/-- The frames that a step of building may build on its way. -/
inductive Below (f : Frame) : Frame → Prop
  /-- The frame of a smaller schema. -/
  | smaller {g : Frame} : g.schema.size < f.schema.size → Below f g
  /-- The frame of a schema in which there is nothing to take apart. -/
  | leaf {g : Frame} : g.schema.Inert → ¬ g.Refers → (¬ f.schema.Inert ∨ f.Refers) → Below f g
  /-- A definition that is a reference, once more as a branch. -/
  | branch {g : Frame} : f.Refers → g.named = false → g.schema = f.schema → Below f g
  /-- The schema as a definition of its own: for its further values, or as the record of a tuple. -/
  | made {g : Frame} : f.named = false → g.named = true → ¬ f.schema.Inert →
      g.schema.size ≤ f.schema.size →
      (g.schema.reference = f.schema.reference ∧ (∃ v, g.schema.additionalProperties =
        some (.schema v))) ∨ (g.schema.reference = none ∧ ¬ g.schema.Opens) → Below f g
  /-- The place once more, with a reference for its elements. -/
  | again {g : Frame} : ¬ f.Refers → g.named = f.named → g.schema.size ≤ f.schema.size →
      g.schema.reference = f.schema.reference → f.schema.Opens → ¬ g.schema.Opens → Below f g

/-- What can still happen to a schema of the size that it has. -/
def stage (f : Frame) : Nat :=
  (if f.named then 1 else if f.schema.reference.isSome then 2 else 3) +
    if f.schema.Opens then 1 else 0

/-- A bound on how deep frames are built below a frame. -/
def rank (f : Frame) : Nat :=
  if f.schema.Inert then if f.Refers then 1 else 0
  else 4 * f.schema.size + if f.Refers then 4 else f.stage

theorem stage_pos (f : Frame) : 0 < f.stage := by
  unfold stage
  split_ifs <;> omega

theorem stage_le (f : Frame) : f.stage ≤ 4 := by
  unfold stage
  split_ifs <;> omega

theorem rank_of_inert (h : f.schema.Inert) (hr : ¬ f.Refers) : f.rank = 0 := by
  rw [rank, if_pos h, if_neg hr]

theorem rank_of_not_inert (h : ¬ f.schema.Inert) (hr : ¬ f.Refers) :
    f.rank = 4 * f.schema.size + f.stage := by
  rw [rank, if_neg h, if_neg hr]

theorem rank_le (f : Frame) : f.rank ≤ 4 * f.schema.size + 4 := by
  have := f.stage_le
  unfold rank
  split <;> split <;> omega

theorem le_rank (hf : ¬ f.schema.Inert) : 4 * f.schema.size < f.rank := by
  have := f.stage_pos
  rw [rank, if_neg hf]
  split <;> omega

theorem rank_pos_of_refers (h : f.Refers) : 0 < f.rank := by
  rw [rank, if_pos h, if_pos h]
  split <;> omega

/-- Of two frames that are no references, the one of no larger schema at an earlier stage ranks lower. -/
theorem rank_lt_of_stage (hf : ¬ f.schema.Inert) (hrefersF : ¬ f.Refers) (hrefersG : ¬ g.Refers)
    (hsize : g.schema.size ≤ f.schema.size) (hstage : g.stage < f.stage) : g.rank < f.rank := by
  rw [rank_of_not_inert hf hrefersF]
  by_cases hinert : g.schema.Inert
  · rw [rank_of_inert hinert hrefersG]
    omega
  · rw [rank_of_not_inert hinert hrefersG]
    omega

/-- **The depth that building allows itself is more than the rank.** -/
theorem rank_lt_depthBound (f : Frame) : f.rank < depthBound f.schema := by
  have := f.rank_le
  unfold depthBound
  omega

/-- **The rank goes down to every frame that a step builds.** -/
theorem rank_lt_of_below (h : Below f g) (hg : g.schema.Lone) : g.rank < f.rank := by
  cases h with
  | smaller hlt =>
    have hle := g.rank_le
    have hf := le_rank (Schema.not_inert_of_size_lt hlt)
    omega
  | leaf hinert hplain hf =>
    rw [rank_of_inert hinert hplain]
    rcases hf with hf | hf
    · have := le_rank hf
      omega
    · exact rank_pos_of_refers hf
  | branch hf hnamed hschema =>
    have hplain : ¬ g.Refers := fun hr => by simp [hr.1] at hnamed
    have href : g.schema.reference.isSome = true := hschema ▸ hf.2
    by_cases hinert : g.schema.Inert
    · rw [rank_of_inert hinert hplain]
      exact rank_pos_of_refers hf
    · have hstage : g.stage ≤ 3 := by
        rw [stage, hnamed, if_pos href]
        simp only [Bool.false_eq_true, if_false]
        split <;> omega
      rw [rank_of_not_inert hinert hplain, hschema, rank, if_neg (hschema ▸ hinert), if_pos hf]
      omega
  | made hf hnamed hinert hsize hcases =>
    have hplainF : ¬ f.Refers := fun hr => by simp [hr.1] at hf
    -- a definition with a schema for further values is no reference
    have href : g.schema.reference = none := by
      rcases hcases with ⟨-, v, hv⟩ | ⟨hnone, -⟩
      · by_contra hsome
        exact hg (Option.isSome_iff_ne_none.mpr hsome) v hv
      · exact hnone
    have hplain : ¬ g.Refers := fun hr => absurd hr.2 (by simp [href])
    have hstage : g.stage < f.stage := by
      rcases hcases with ⟨hsame, -⟩ | ⟨-, hopens⟩
      · rw [stage, stage, hnamed, hf, ← hsame, href]
        simp only [Option.isSome_none, Bool.false_eq_true, if_true, if_false]
        split <;> split <;> omega
      · rw [stage, stage, hnamed, hf, if_neg hopens]
        simp only [Bool.false_eq_true, if_true, if_false]
        split <;> omega
    exact rank_lt_of_stage hinert hplainF hplain hsize hstage
  | again hplainF hnamed hsize href hopensF hopens =>
    have hplain : ¬ g.Refers := fun hr => hplainF ⟨hnamed ▸ hr.1, href ▸ hr.2⟩
    have hstage : g.stage < f.stage := by
      rw [stage, stage, hnamed, href, if_pos hopensF, if_neg hopens]
      omega
    exact rank_lt_of_stage hopensF.not_inert hplainF hplain hsize hstage

end Frame

end KclModels
