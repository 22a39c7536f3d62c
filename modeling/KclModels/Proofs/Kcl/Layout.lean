import KclModels.Kcl.File

/-!
# The text of a body

Blocks without separators have a text of their own, whatever they are added to. The text of the
declarations of a file is made up of those of the single declarations: two empty lines come after
each but the last, one of which it may end in, and the last loses the empty lines it ends in.
-/

namespace KclModels.Kcl

/-! ## Blocks without separators -/

mutual

/-- The block is made of lines only. -/
def Block.isPlain : Block → Bool
  | .line _ => true
  | .blank => false
  | .indented body => arePlain body

def arePlain : List Block → Bool
  | [] => true
  | b :: rest => b.isPlain && arePlain rest

end

theorem arePlain_append (bs bs' : List Block) :
    arePlain (bs ++ bs') = (arePlain bs && arePlain bs') := by
  induction bs with
  | nil => rfl
  | cons b rest ih => rw [List.cons_append, arePlain, arePlain, ih, Bool.and_assoc]

theorem arePlain_linesOf {α : Type} (g : α → String) (l : List α) :
    arePlain (l.map fun a => .line (g a)) = true := by
  induction l with
  | nil => rfl
  | cons a rest ih => exact ih

theorem arePlain_lines (l : List String) : arePlain (l.map .line) = true :=
  arePlain_linesOf id l

theorem arePlain_flatMap {α : Type} {g : α → List Block} (hg : ∀ a, arePlain (g a) = true)
    (l : List α) : arePlain (l.flatMap g) = true := by
  induction l with
  | nil => rfl
  | cons a rest ih => rw [List.flatMap_cons, arePlain_append, hg, ih]; rfl

mutual

theorem Block.addTo_eq_append (level : Nat) (out : String) :
    ∀ b : Block, b.isPlain = true → b.addTo level out = out ++ b.addTo level ""
  | .line text, _ => by rw [Block.addTo, Block.addTo, String.empty_append]
  | .indented body, h => addBlocks_eq_append (level + 1) out body h

/-- **Blocks of lines have a text of their own.** -/
theorem addBlocks_eq_append (level : Nat) (out : String) :
    ∀ bs : List Block, arePlain bs = true → addBlocks level out bs = out ++ addBlocks level "" bs
  | [], _ => (String.append_empty ..).symm
  | b :: rest, h => by
    obtain ⟨hb, hrest⟩ := Bool.and_eq_true_iff.mp h
    rw [addBlocks, addBlocks, addBlocks_eq_append level _ rest hrest,
      Block.addTo_eq_append level out b hb, String.append_assoc,
      ← addBlocks_eq_append level _ rest hrest]

end

theorem addBlocks_append (level : Nat) (bs' bs : List Block) : ∀ out : String,
    addBlocks level out (bs ++ bs') = addBlocks level (addBlocks level out bs) bs' := by
  induction bs with
  | nil => exact fun _ => rfl
  | cons b rest ih => exact fun out => ih (b.addTo level out)

theorem addBlocks_append_plain {bs' : List Block} (h : arePlain bs' = true) (level : Nat)
    (out : String) (bs : List Block) :
    addBlocks level out (bs ++ bs') = addBlocks level out bs ++ addBlocks level "" bs' := by
  rw [addBlocks_append, addBlocks_eq_append level _ bs' h]

/-! ## Ends of texts -/

/-- A text without the empty lines it ends in. -/
def trimEnd (t : String) : String := String.ofList (dropBlankEnd t.toList.reverse).reverse

/-- A text with the empty lines that come between it and another. -/
def separated (t : String) : String := (if endsBlank t then t else t ++ "\n") ++ "\n"

/-- The text is not just line breaks. -/
def Solid (t : String) : Prop := ∃ c ∈ t.toList, c ≠ '\n'

/-- The text ends in a line with something in it. -/
def EndsLine (t : String) : Prop := ∃ x c, c ≠ '\n' ∧ t = x ++ String.ofList [c, '\n']

/--
`e` changes no more than how a text ends: a line with something in it gets the end `rest`, whether
or not an empty line comes after it.
-/
structure Ending (e : String → String) (rest : String) : Prop where
  append {x y : String} : Solid y → e (x ++ y) = x ++ e y
  line {c : Char} : c ≠ '\n' → e (String.ofList [c, '\n']) = String.ofList [c, '\n'] ++ rest
  blank {c : Char} : c ≠ '\n' →
    e (String.ofList [c, '\n', '\n']) = String.ofList [c, '\n'] ++ rest

variable {x y t rest : String} {e : String → String}

theorem Solid.append (h : Solid y) : Solid (x ++ y) := by
  obtain ⟨c, hc, hne⟩ := h
  exact ⟨c, String.toList_append ▸ List.mem_append_right _ hc, hne⟩

theorem Solid.append_left (h : Solid x) : Solid (x ++ y) := by
  obtain ⟨c, hc, hne⟩ := h
  exact ⟨c, String.toList_append ▸ List.mem_append_left _ hc, hne⟩

theorem EndsLine.append (h : EndsLine y) : EndsLine (x ++ y) := by
  obtain ⟨z, c, hc, rfl⟩ := h
  exact ⟨x ++ z, c, hc, (String.append_assoc ..).symm⟩

namespace Ending

variable (he : Ending e rest)

include he

theorem of_endsLine (h : EndsLine t) : e t = t ++ rest := by
  obtain ⟨x, c, hc, rfl⟩ := h
  rw [he.append ⟨c, by simp, hc⟩, he.line hc, String.append_assoc]

theorem of_blank (h : EndsLine t) : e (t ++ "\n") = t ++ rest := by
  obtain ⟨x, c, hc, rfl⟩ := h
  have hblank : x ++ String.ofList [c, '\n'] ++ "\n" = x ++ String.ofList [c, '\n', '\n'] := by
    rw [String.append_assoc]
    exact congrArg (x ++ ·) (String.ofList_append).symm
  rw [hblank, he.append ⟨c, by simp, hc⟩, he.blank hc, String.append_assoc]

end Ending

/-- Two line breaks at the start of a list are within a part that is not just line breaks. -/
theorem blank_of_append {l l' tail : List Char} (hl : ∃ c ∈ l, c ≠ '\n')
    (h : l ++ l' = '\n' :: '\n' :: tail) : ∃ tail', l = '\n' :: '\n' :: tail' := by
  obtain ⟨c, hc, hne⟩ := hl
  match l with
  | [] => exact absurd hc List.not_mem_nil
  | [d] =>
    obtain rfl := List.mem_singleton.mp hc
    exact absurd (List.cons.inj h).1 hne
  | d :: d' :: l =>
    obtain ⟨hd, h⟩ := List.cons.inj h
    exact ⟨l, by rw [hd, (List.cons.inj h).1]⟩

theorem dropBlankEnd_append {l : List Char} (h : ∃ c ∈ l, c ≠ '\n') (l' : List Char) :
    dropBlankEnd (l ++ l') = dropBlankEnd l ++ l' := by
  fun_induction dropBlankEnd l with
  | case1 tail ih =>
    obtain ⟨c, hc, hne⟩ := h
    exact ih ⟨c, List.mem_of_ne_of_mem hne hc, hne⟩
  | case2 l hl =>
    rw [dropBlankEnd]
    intro tail htail
    obtain ⟨tail', rfl⟩ := blank_of_append h htail
    exact hl tail' rfl

theorem endsBlank_iff : endsBlank t = true ↔ ∃ tail, t.toList.reverse = '\n' :: '\n' :: tail := by
  unfold endsBlank
  split
  · rename_i tail htail
    exact iff_of_true rfl ⟨tail, htail⟩
  · rename_i hnone
    exact iff_of_false Bool.false_ne_true fun ⟨tail, htail⟩ => hnone tail htail

theorem Solid.reverse (h : Solid t) : ∃ c ∈ t.toList.reverse, c ≠ '\n' :=
  h.imp fun _ hc => ⟨List.mem_reverse.mpr hc.1, hc.2⟩

theorem endsBlank_append (h : Solid y) : endsBlank (x ++ y) = endsBlank y := by
  rw [Bool.eq_iff_iff, endsBlank_iff, endsBlank_iff, String.toList_append, List.reverse_append]
  constructor
  · exact fun ⟨_, htail⟩ => blank_of_append h.reverse htail
  · exact fun ⟨tail, htail⟩ => ⟨tail ++ x.toList.reverse, by rw [htail]; rfl⟩

theorem trimEnd_ending : Ending trimEnd "" where
  append {x y} h := by
    rw [trimEnd, String.toList_append, List.reverse_append, dropBlankEnd_append h.reverse,
      List.reverse_append, List.reverse_reverse, String.ofList_append, String.ofList_toList]
    rfl
  line {c} hc := by
    have hdrop : dropBlankEnd ['\n', c] = ['\n', c] := by simp [dropBlankEnd, hc]
    rw [trimEnd, String.toList_ofList, String.append_empty]
    exact congrArg (String.ofList ·.reverse) hdrop
  blank {c} hc := by
    have hdrop : dropBlankEnd ['\n', '\n', c] = ['\n', c] := by simp [dropBlankEnd, hc]
    rw [trimEnd, String.toList_ofList, String.append_empty]
    exact congrArg (String.ofList ·.reverse) hdrop

theorem separated_ending : Ending separated "\n\n" where
  append {x y} h := by
    rw [separated, separated, endsBlank_append h]
    split <;> simp only [String.append_assoc]
  line {c} hc := by
    have hblank : ¬endsBlank (String.ofList [c, '\n']) = true := by simp [endsBlank, hc]
    rw [separated, if_neg hblank, String.append_assoc]
    rfl
  blank {c} hc := by
    have hblank : endsBlank (String.ofList [c, '\n', '\n']) = true := by simp [endsBlank]
    have happend : String.ofList ([c, '\n'] ++ ['\n']) = String.ofList [c, '\n'] ++ "\n" :=
      String.ofList_append
    rw [separated, if_pos hblank]
    refine (congrArg (· ++ "\n") happend).trans ?_
    rw [String.append_assoc]
    rfl

/-! ## Declarations -/

theorem arePlain_schemaDoc (m : Model) (name : String) (attributes : List Model) :
    arePlain (schemaDoc m name attributes) = true := by
  have hattribute : ∀ a, arePlain (attributeDoc a) = true := by
    intro a
    unfold attributeDoc
    dsimp only
    split <;> simp [arePlain, Block.isPlain, arePlain_lines]
  have hbody : arePlain (docBody m name attributes) = true := by
    unfold docBody
    dsimp only
    rw [arePlain_append, Bool.and_eq_true]
    constructor
    · split <;> simp [arePlain, Block.isPlain, arePlain_lines]
    · split <;> simp [arePlain, Block.isPlain, arePlain_flatMap hattribute]
  simp [schemaDoc, arePlain_append, arePlain, Block.isPlain, hbody]

theorem arePlain_checkBlock (attributes : List Model) : arePlain (checkBlock attributes) = true := by
  unfold checkBlock
  dsimp only
  split <;> simp [arePlain, Block.isPlain, arePlain_lines]

theorem arePlain_schemaBlocks (m : Model) (name : String) :
    arePlain (schemaBlocks m name) = true := by
  simp [schemaBlocks, arePlain_append, arePlain, Block.isPlain, arePlain_lines, arePlain_linesOf,
    arePlain_schemaDoc, arePlain_checkBlock]

theorem arePlain_declaration (m : Model) : arePlain (declaration m) = true := by
  unfold declaration
  split
  · simp [aliasBlocks, arePlain_append, arePlain, Block.isPlain, arePlain_linesOf]
  · exact arePlain_schemaBlocks m m.declaredName

/-- The text of a declaration. -/
def declarationText (m : Model) : String := addBlocks 0 "" (declaration m)

theorem Solid.not_isEmpty (h : Solid t) : ¬t.isEmpty = true := by
  obtain ⟨c, hc, -⟩ := h
  rintro hempty
  rw [String.isEmpty_iff.mp hempty] at hc
  exact List.not_mem_nil hc

theorem Solid.lineAt {level : Nat} (h : Solid t) : Solid (lineAt level t) := by
  rw [Kcl.lineAt, if_neg h.not_isEmpty]
  exact h.append.append_left

theorem declarationText_solid (m : Model) : Solid (declarationText m) := by
  unfold declarationText declaration
  split
  · have htype : Solid ("type " ++ m.declaredName ++ " = " ++ aliasTarget m) :=
      ((Solid.append_left ⟨'t', by decide, by decide⟩).append_left).append_left
    rw [aliasBlocks, addBlocks_append]
    exact htype.lineAt.append
  · have hheader : Solid (header m m.declaredName m.parentBranch) := by
      unfold header
      split
      · exact (((Solid.append_left ⟨'s', by decide, by decide⟩).append_left).append_left).append_left
      · exact (Solid.append_left ⟨'s', by decide, by decide⟩).append_left
    have hplain := arePlain_schemaBlocks m m.declaredName
    rw [schemaBlocks, arePlain, Bool.and_eq_true] at hplain
    rw [schemaBlocks, addBlocks, addBlocks_eq_append 0 _ _ hplain.2]
    exact hheader.lineAt.append.append_left

/-- The text of declarations, each but the last with the empty lines after it. -/
def bodyText : List Model → String
  | [] => ""
  | [m] => trimEnd (declarationText m)
  | m :: rest => separated (declarationText m) ++ bodyText rest

theorem bodyText_cons_cons (m m' : Model) (rest : List Model) : bodyText (m :: m' :: rest) =
    separated (declarationText m) ++ bodyText (m' :: rest) := rfl

/-- Declarations are added to a text that is separated from them. -/
theorem trimEnd_addBlocks (models : List Model) : ∀ {t : String}, Solid t →
    trimEnd (addBlocks 0 t (models.flatMap fun m => [.blank, .line ""] ++ declaration m)) =
      if models.isEmpty then trimEnd t else separated t ++ bodyText models := by
  induction models with
  | nil => exact fun _ => rfl
  | cons m rest ih =>
    intro t ht
    have hsolid := declarationText_solid m
    have hadd : addBlocks 0 t ([.blank, .line ""] ++ declaration m) =
        separated t ++ declarationText m := by
      have hempty : t.isEmpty = false := Bool.eq_false_iff.mpr ht.not_isEmpty
      rw [addBlocks_append, addBlocks_eq_append 0 _ _ (arePlain_declaration m)]
      simp only [addBlocks, Block.addTo, hempty, Bool.false_or, declarationText, separated]
      rfl
    -- What was written before stays as it is, since the declaration is more than line breaks.
    rw [List.flatMap_cons, addBlocks_append, hadd, ih hsolid.append, List.isEmpty_cons,
      if_neg Bool.false_ne_true, separated_ending.append hsolid, trimEnd_ending.append hsolid]
    cases rest with
    | nil => rfl
    | cons m' rest =>
      rw [List.isEmpty_cons, if_neg Bool.false_ne_true, bodyText_cons_cons, String.append_assoc]

/-- **The text of a body is made up of those of its declarations.** -/
theorem layout_body (f : ModelFile) : layout (body f) = bodyText (f.model :: f.extras) := by
  have htext := trimEnd_addBlocks f.extras (declarationText_solid f.model)
  rw [declarationText, ← addBlocks_append] at htext
  refine Eq.trans htext ?_
  cases f.extras <;> rfl

end KclModels.Kcl
