import KclModels.Kcl.Declaration
import KclModels.Proofs.Kcl.Layout
import KclModels.Proofs.Kcl.Literals
import KclModels.Proofs.Naming.Stem

/-!
# What a document cannot end

The documentation of a schema stands between three quotes. Free text has its own three quotes
softened; names, types and values are spliced in as they are written elsewhere, where a quote is
either escaped or the end of a literal, and what joins literals holds none. So no three quotes stand
in a row before those that end the documentation.
-/

namespace KclModels.Kcl

variable {a b sep : List Char} {s t text name : String} {m : Model} {attributes : List Model}

/-! ## Texts put together -/

theorem tame_append_of_notMem_left (ha : '"' ∉ a) : Tame (a ++ b) ↔ Tame b := by
  induction a with
  | nil => rfl
  | cons c a ih =>
    rw [List.mem_cons, not_or] at ha
    rw [List.cons_append, tame_cons (Ne.symm ha.1), ih ha.2]

theorem tame_append_of_notMem_right (hb : '"' ∉ b) : Tame (a ++ b) ↔ Tame a := by
  cases b with
  | nil => rw [List.append_nil]
  | cons c b =>
    rw [List.mem_cons, not_or] at hb
    rw [tame_append_cons (Ne.symm hb.1), and_iff_left (.of_notMem hb.2)]

/-- **Texts that are kept apart** stay tame. -/
theorem tame_join (hne : sep ≠ []) (hsep : '"' ∉ sep) :
    Tame (a ++ (sep ++ b)) ↔ Tame a ∧ Tame b := by
  cases sep with
  | nil => exact absurd rfl hne
  | cons c sep =>
    rw [List.mem_cons, not_or] at hsep
    rw [List.cons_append, tame_append_cons (Ne.symm hsep.1), tame_append_of_notMem_left hsep.2]

theorem tame_spliced : Spliced fun s => Tame s.toList where
  inert h := .of_notMem (h.notMem (by decide))
  quoted s := by
    rw [quote_toList]
    exact literalChar_escapes.tame _
  join hne hsep ha hb := by
    rw [String.toList_append, String.toList_append, List.append_assoc]
    exact (tame_join (by simpa using hne) (hsep.notMem (by decide))).mpr ⟨ha, hb⟩

/-! ## Free text -/

/-- Only what begins with a quote begins with one when it is softened. -/
theorem eq_of_softenQuotes_eq {cs rest : List Char} (h : softenQuotes cs = '"' :: rest) :
    ∃ tail, cs = '"' :: tail ∧ rest = softenQuotes tail := by
  unfold softenQuotes at h
  split at h
  · exact absurd (List.cons.inj h).1 (by decide)
  · obtain ⟨rfl, rfl⟩ := List.cons.inj h
    exact ⟨_, rfl, rfl⟩
  · exact absurd h (by simp)

/-- **Softened text has no three quotes in a row.** -/
theorem tame_softenQuotes (cs : List Char) : Tame (softenQuotes cs) := by
  fun_induction softenQuotes cs with
  | case1 cs ih =>
    rwa [tame_cons (by decide), tame_cons (by decide), tame_cons (by decide)]
  | case2 c cs hno ih =>
    intro hrow
    rcases List.infix_cons_iff.mp hrow with hfirst | hrow
    · -- the first quotes of the rest would have been quotes before
      obtain ⟨tail, htail⟩ := hfirst
      obtain ⟨rfl, hrest⟩ := List.cons.inj htail
      obtain ⟨cs', rfl, hrest'⟩ := eq_of_softenQuotes_eq hrest.symm
      obtain ⟨cs'', rfl, -⟩ := eq_of_softenQuotes_eq hrest'.symm
      exact hno cs'' rfl rfl
    · exact ih hrow
  | case3 => exact tame_nil

theorem summary_tame (h : text ∈ summary m) : Tame text.toList := by
  unfold summary at h
  split at h
  · obtain ⟨line, -, rfl⟩ := List.mem_map.mp h
    rw [docLine, String.toList_ofList]
    exact tame_softenQuotes _
  · exact absurd h List.not_mem_nil

/-! ## Attributes -/

theorem attributeName_tame (name : String) : Tame (Naming.attributeName name).toList := by
  by_cases h : Naming.isIdentifier name = true
  · have hname : '"' ∉ name.toList := fun hc => absurd ((Naming.isIdentifier_iff.mp h).1 '"' hc)
      (by decide)
    refine .of_notMem ?_
    rw [Naming.attributeName, if_pos h, Naming.escapeReserved]
    split
    · simpa using hname
    · exact hname
  · rw [attributeName_toList (Bool.eq_false_iff.mpr h)]
    exact attributeChar_escapes.tame _

theorem attributeSummary_tame (h : '"' ∉ m.type.kclType.toList) :
    Tame (attributeSummary m).toList := by
  unfold attributeSummary
  refine tame_spliced.intercalate (by decide) (by decide) fun text htext => ?_
  simp only [List.mem_append, List.mem_singleton, List.mem_map] at htext
  rcases htext with ((rfl | ⟨v, -, rfl⟩) | htext) | rfl
  · exact tame_spliced.join (by decide) (by decide) (attributeName_tame _)
      (tame_spliced.attributeType (.of_notMem h))
  · rw [String.toList_append, tame_append_of_notMem_left (by decide)]
    exact tame_spliced.literal v
  · split at htext
    · rw [List.mem_singleton.mp htext]
      exact .of_notMem (by decide)
    · exact absurd htext List.not_mem_nil
  · split <;> exact .of_notMem (by decide)

/-! ## Lines -/

mutual

/-- The texts of the lines of a block. -/
def Block.texts : Block → List String
  | .line text => [text]
  | .blank => []
  | .indented body => blockTexts body

def blockTexts : List Block → List String
  | [] => []
  | b :: rest => b.texts ++ blockTexts rest

end

theorem blockTexts_append (bs bs' : List Block) :
    blockTexts (bs ++ bs') = blockTexts bs ++ blockTexts bs' := by
  induction bs with
  | nil => rfl
  | cons b rest ih => rw [List.cons_append, blockTexts, blockTexts, ih, List.append_assoc]

theorem blockTexts_lines (texts : List String) : blockTexts (texts.map .line) = texts := by
  induction texts with
  | nil => rfl
  | cons text rest ih => rw [List.map_cons, blockTexts, ih]; rfl

theorem mem_blockTexts_flatMap {α : Type} {g : α → List Block} {l : List α}
    (h : text ∈ blockTexts (l.flatMap g)) : ∃ x ∈ l, text ∈ blockTexts (g x) := by
  induction l with
  | nil => exact absurd h List.not_mem_nil
  | cons x rest ih =>
    rw [List.flatMap_cons, blockTexts_append, List.mem_append] at h
    rcases h with h | h
    · exact ⟨x, List.mem_cons_self, h⟩
    · obtain ⟨y, hy, h⟩ := ih h
      exact ⟨y, List.mem_cons_of_mem x hy, h⟩

theorem attributeDoc_tame (h : '"' ∉ m.type.kclType.toList)
    (ht : text ∈ blockTexts (attributeDoc m)) : Tame text.toList := by
  have hsummary : ∀ text ∈ blockTexts [Block.indented ((summary m).map .line)],
      Tame text.toList := by
    intro text htext
    rw [blockTexts, Block.texts, blockTexts_lines, blockTexts, List.append_nil] at htext
    exact summary_tame htext
  unfold attributeDoc at ht
  dsimp only at ht
  rw [blockTexts, Block.texts, List.singleton_append, List.mem_cons] at ht
  rcases ht with rfl | ht
  · exact attributeSummary_tame h
  · split at ht
    · exact absurd ht List.not_mem_nil
    · exact hsummary text ht

/-- **Each line of documentation is tame.** -/
theorem docBody_tame (hname : '"' ∉ name.toList)
    (htypes : ∀ a ∈ attributes, '"' ∉ a.type.kclType.toList)
    (h : text ∈ blockTexts (docBody m name attributes)) : Tame text.toList := by
  unfold docBody at h
  dsimp only at h
  rw [blockTexts_append, List.mem_append] at h
  rcases h with h | h
  · split at h
    · rw [blockTexts, Block.texts, blockTexts, List.append_nil, List.mem_singleton] at h
      -- without a summary the name stands in its place
      exact h ▸ .of_notMem hname
    · rw [blockTexts_lines] at h
      exact summary_tame h
  · split at h
    · exact absurd h List.not_mem_nil
    · rw [blockTexts_append, List.mem_append] at h
      rcases h with h | h
      · -- the heading of the attributes
        have hall : ∀ text ∈ blockTexts [Block.line "", .line "Attributes", .line "----------"],
            '"' ∉ text.toList := by
          decide
        exact .of_notMem (hall text h)
      · obtain ⟨a, ha, h⟩ := mem_blockTexts_flatMap h
        exact attributeDoc_tame (htypes a ha) h

/-! ## Laid out -/

/-- A text made of whole lines, with no three quotes in a row. -/
def Settled (cs : List Char) : Prop := Tame cs ∧ (cs = [] ∨ ∃ before, cs = before ++ ['\n'])

theorem settled_empty : Settled "".toList := ⟨tame_nil, Or.inl rfl⟩

/-- What comes after whole lines makes no third quote with them. -/
theorem Settled.tame_append (h : Settled a) (hb : Tame b) : Tame (a ++ b) := by
  obtain ⟨ha, rfl | ⟨before, rfl⟩⟩ := h
  · exact hb
  · rw [List.append_assoc, List.singleton_append, tame_append_cons (by decide)]
    exact ⟨((tame_append_cons (by decide)).mp ha).1, hb⟩

theorem lineAt_tame (level : Nat) (h : Tame text.toList) : Tame (lineAt level text).toList := by
  have hblanks : '"' ∉ (indentation level).toList := by
    simp [indentation]
  unfold lineAt
  split
  · exact .of_notMem (by decide)
  · rw [String.toList_append, String.toList_append, tame_append_of_notMem_right (by decide),
      tame_append_of_notMem_left hblanks]
    exact h

theorem lineAt_end (level : Nat) (text : String) :
    ∃ before, (lineAt level text).toList = before ++ ['\n'] := by
  unfold lineAt
  split
  · exact ⟨[], rfl⟩
  · exact ⟨(indentation level ++ text).toList, String.toList_append⟩

mutual

theorem Block.addTo_settled {level : Nat} {out : String} (hout : Settled out.toList) :
    ∀ b : Block, (∀ text ∈ b.texts, Tame text.toList) → Settled (b.addTo level out).toList
  | .line text, h => by
    have htext := lineAt_tame level (h text List.mem_cons_self)
    obtain ⟨before, hbefore⟩ := lineAt_end level text
    rw [Block.addTo, String.toList_append]
    exact ⟨hout.tame_append htext, Or.inr ⟨_, by rw [hbefore, List.append_assoc]⟩⟩
  | .blank, _ => by
    rw [Block.addTo]
    split
    · exact hout
    · rw [String.toList_append]
      exact ⟨hout.tame_append (.of_notMem (by decide)), Or.inr ⟨_, rfl⟩⟩
  | .indented body, h => addBlocks_settled hout body h

/-- **Tame lines make a tame text.** -/
theorem addBlocks_settled {level : Nat} {out : String} (hout : Settled out.toList) :
    ∀ bs : List Block, (∀ text ∈ blockTexts bs, Tame text.toList) →
      Settled (addBlocks level out bs).toList
  | [], _ => hout
  | b :: rest, h => by
    rw [blockTexts] at h
    exact addBlocks_settled
      (Block.addTo_settled hout b fun text ht => h text (List.mem_append_left _ ht)) rest
      fun text ht => h text (List.mem_append_right _ ht)

end

/-- Three quotes in a row stand only behind whole lines that have none. -/
theorem Settled.isPrefix {before after : List Char} (h : Settled a)
    (heq : a ++ b = before ++ (['"', '"', '"'] ++ after)) : a <+: before := by
  rcases List.append_eq_append_iff.mp heq with ⟨t, hbefore, -⟩ | ⟨t, ha, hquotes⟩
  · exact ⟨t, hbefore.symm⟩
  · obtain ⟨htame, hend⟩ := h
    rcases t.eq_nil_or_concat with rfl | ⟨t, c, rfl⟩
    · rw [List.append_nil] at ha
      exact ha ▸ List.prefix_refl a
    · -- the quotes would have begun before a line break and ended behind it
      obtain rfl : c = '\n' := by
        rcases hend with rfl | ⟨lines, hlines⟩
        · simp at ha
        · rw [hlines, List.concat_eq_append, ← List.append_assoc] at ha
          exact (List.cons.inj (List.append_inj_right' ha rfl)).1.symm
      have hrow : ['"', '"', '"'] <:+: t := by
        rw [List.concat_eq_append, List.append_assoc, List.singleton_append] at hquotes
        rcases List.append_eq_append_iff.mp hquotes with ⟨u, rfl, -⟩ | ⟨u, hu, hrest⟩
        · exact ⟨[], u, rfl⟩
        · cases u with
          | nil => exact ⟨[], [], by rw [hu]; simp⟩
          | cons d u =>
            obtain ⟨rfl, -⟩ := List.cons.inj hrest
            exact absurd (hu ▸ by simp : '\n' ∈ ['"', '"', '"']) (by decide)
      rw [List.concat_eq_append] at ha
      exact absurd (hrow.trans ⟨before, ['\n'], by rw [ha, List.append_assoc]⟩) htame

theorem addBlocks_line (level : Nat) (out text : String) :
    addBlocks level out [.line text] = out ++ lineAt level text := rfl

/-- The text between the first and the last line of documentation. -/
def docText (level : Nat) (m : Model) (name : String) (attributes : List Model) : String :=
  addBlocks level "" (docBody m name attributes)

theorem schemaDoc_text (level : Nat) (m : Model) (name : String) (attributes : List Model) :
    addBlocks level "" (schemaDoc m name attributes) =
      lineAt level "r\"\"\"" ++ docText level m name attributes ++ lineAt level "\"\"\"" := by
  have hplain := arePlain_schemaDoc m name attributes
  simp only [schemaDoc, arePlain_append, Bool.and_eq_true] at hplain
  rw [schemaDoc, addBlocks_append, addBlocks_append, addBlocks_eq_append level _ _ hplain.1.2,
    addBlocks_line, addBlocks_line, String.empty_append, docText]

/--
**No text of a document ends the documentation.** Titles, descriptions, property names, defaults and
enum values may be any; as long as the declared name and the types hold no quote, no line between
the first and the last has three quotes in a row, and the first three quotes after the first line
are those of the last.
-/
theorem documentation_not_ended (m : Model) (name : String) (attributes : List Model)
    (hname : '"' ∉ name.toList) (htypes : ∀ a ∈ attributes, '"' ∉ a.type.kclType.toList) :
    (∀ text ∈ blockTexts (docBody m name attributes), Tame text.toList) ∧
      ∀ level, addBlocks level "" (schemaDoc m name attributes) =
          lineAt level "r\"\"\"" ++ docText level m name attributes ++ lineAt level "\"\"\"" ∧
        Tame (docText level m name attributes).toList ∧
        ∀ before after, (docText level m name attributes).toList ++
            (lineAt level "\"\"\"").toList = before ++ (['"', '"', '"'] ++ after) →
          (docText level m name attributes).toList <+: before := by
  have htexts : ∀ text ∈ blockTexts (docBody m name attributes), Tame text.toList :=
    fun text ht => docBody_tame hname htypes ht
  refine ⟨htexts, fun level => ⟨schemaDoc_text level m name attributes, ?_⟩⟩
  have hbody : Settled (docText level m name attributes).toList :=
    addBlocks_settled settled_empty _ htexts
  exact ⟨hbody.1, fun before after => hbody.isPrefix⟩

/-- An attribute whose name, default and description are made of quotes. -/
def quotedAttribute : Model :=
  { name := "\"\"\"", description := some "\"\"\"\"", type := { kclType := "any" },
    defaultValue := some (.arr [.str "\"\"\"", .str ""]) }

theorem quotedAttribute_documented :
    blockTexts (docBody { title := some "\"\"\"" } "Box" [quotedAttribute]) =
        ["'''", "", "Attributes", "----------",
          "\"\\\"\\\"\\\"\" : any, default is [\"\\\"\\\"\\\"\", \"\"], optional", "'''\""] ∧
      ∀ text ∈ blockTexts (docBody { title := some "\"\"\"" } "Box" [quotedAttribute]),
        Tame text.toList :=
  ⟨by decide +kernel, (documentation_not_ended _ "Box" [quotedAttribute] (by decide)
    (by simp [quotedAttribute])).1⟩

end KclModels.Kcl
