import KclModels.Text.Cut

/-!
# Cut texts

A cut text is put together again: what stands before the separator does not hold it, so there is one
way to cut a text, and cutting a text into pieces goes piece by piece.
-/

namespace KclModels.Text

variable {sep : Char} {cs ds before after : List Char} {s t : String}

theorem cutChars_eq_none (h : sep ∉ cs) : cutChars sep cs = none := by
  induction cs with
  | nil => rfl
  | cons c cs ih =>
    have hne : c ≠ sep := fun hc => h (hc ▸ List.mem_cons_self)
    rw [cutChars, if_neg hne, ih fun hm => h (List.mem_cons_of_mem _ hm), Option.map_none]

theorem cutChars_append (h : sep ∉ before) :
    cutChars sep (before ++ sep :: after) = some (before, after) := by
  induction before with
  | nil => exact if_pos rfl
  | cons c before ih =>
    have hne : c ≠ sep := fun hc => h (hc ▸ List.mem_cons_self)
    rw [List.cons_append, cutChars, if_neg hne, ih fun hm => h (List.mem_cons_of_mem c hm)]
    rfl

theorem eq_of_cutChars (h : cutChars sep cs = some (before, after)) :
    cs = before ++ sep :: after ∧ sep ∉ before := by
  induction cs generalizing before with
  | nil => exact absurd h (by simp [cutChars])
  | cons c cs ih =>
    rw [cutChars] at h
    split at h
    · rename_i hc
      obtain ⟨rfl, rfl⟩ := Prod.mk.inj (Option.some.inj h)
      exact ⟨hc ▸ rfl, List.not_mem_nil⟩
    · rename_i hne
      obtain ⟨⟨b, a⟩, hcut, heq⟩ := Option.map_eq_some_iff.mp h
      obtain ⟨rfl, rfl⟩ := Prod.mk.inj heq
      obtain ⟨rfl, hnot⟩ := ih hcut
      refine ⟨rfl, fun hmem => ?_⟩
      rcases List.mem_cons.mp hmem with rfl | hmem
      · exact hne rfl
      · exact hnot hmem

theorem cutFirst?_append {s t : String} (h : sep ∉ s.toList) :
    cutFirst? sep (s ++ String.singleton sep ++ t) = some (s, t) := by
  rw [cutFirst?, String.toList_append, String.toList_append, String.toList_singleton,
    List.append_assoc, List.singleton_append, cutChars_append h]
  simp

theorem eq_of_cutFirst? {text : String} (h : cutFirst? sep text = some (s, t)) :
    text = s ++ String.singleton sep ++ t ∧ sep ∉ s.toList := by
  obtain ⟨⟨b, a⟩, hcut, heq⟩ := Option.map_eq_some_iff.mp h
  obtain ⟨rfl, rfl⟩ := Prod.mk.inj heq
  obtain ⟨htext, hnot⟩ := eq_of_cutChars hcut
  refine ⟨?_, by rwa [String.toList_ofList]⟩
  rw [← String.toList_inj, htext]
  simp

/-! ## Pieces -/

theorem splitChars_append (cs ds : List Char) :
    splitChars sep (cs ++ sep :: ds) = splitChars sep cs ++ splitChars sep ds := by
  induction cs with
  | nil => simp [splitChars]
  | cons c cs ih =>
    rw [List.cons_append, splitChars, splitChars]
    split
    · rw [ih, List.cons_append]
    · rw [ih]
      cases h : splitChars sep cs with
      | nil => exact absurd h (splitChars_ne_nil sep cs)
      | cons piece pieces => rfl

theorem splitChars_of_notMem (h : sep ∉ cs) : splitChars sep cs = [cs] := by
  induction cs with
  | nil => rfl
  | cons c cs ih =>
    have hne : c ≠ sep := fun hc => h (hc ▸ List.mem_cons_self)
    rw [splitChars, if_neg hne, ih fun hm => h (List.mem_cons_of_mem c hm)]

/-- **The pieces give the text again** with separators between them. -/
theorem intercalate_splitChars (sep : Char) (cs : List Char) :
    [sep].intercalate (splitChars sep cs) = cs := by
  induction cs with
  | nil => rfl
  | cons c cs ih =>
    obtain ⟨piece, pieces, hpieces⟩ := List.exists_cons_of_ne_nil (splitChars_ne_nil sep cs)
    rw [hpieces] at ih
    rw [splitChars]
    split
    · rename_i hc
      rw [hpieces, List.intercalate_cons_cons, ih, hc, List.nil_append, List.singleton_append]
    · rw [hpieces]
      cases pieces with
      | nil => rw [List.intercalate_singleton] at ih ⊢; rw [ih]
      | cons next rest =>
        rw [List.intercalate_cons_cons] at ih ⊢
        rw [List.cons_append, List.cons_append, ih]

theorem notMem_of_mem_splitChars {piece : List Char} (h : piece ∈ splitChars sep cs) :
    sep ∉ piece := by
  induction cs generalizing piece with
  | nil =>
    obtain rfl := List.mem_singleton.mp h
    exact List.not_mem_nil
  | cons c cs ih =>
    obtain ⟨first, pieces, hpieces⟩ := List.exists_cons_of_ne_nil (splitChars_ne_nil sep cs)
    rw [hpieces] at ih
    rw [splitChars] at h
    split at h
    · rw [hpieces] at h
      rcases List.mem_cons.mp h with rfl | h
      · exact List.not_mem_nil
      · exact ih h
    · rename_i hne
      rw [hpieces] at h
      rcases List.mem_cons.mp h with rfl | h
      · rw [List.mem_cons]
        rintro (rfl | hmem)
        · exact hne rfl
        · exact ih List.mem_cons_self hmem
      · exact ih (List.mem_cons_of_mem first h)

theorem intercalate_split (sep : Char) (s : String) :
    (String.singleton sep).intercalate (split sep s) = s := by
  have hpieces : (split sep s).map String.toList = splitChars sep s.toList := by
    rw [split, List.map_map]
    exact (List.map_congr_left fun _ _ => String.toList_ofList).trans (List.map_id _)
  rw [← String.toList_inj, String.toList_intercalate, hpieces, String.toList_singleton,
    intercalate_splitChars]

theorem split_append (s t : String) :
    split sep (s ++ String.singleton sep ++ t) = split sep s ++ split sep t := by
  rw [split, String.toList_append, String.toList_append, String.toList_singleton, List.append_assoc,
    List.singleton_append, splitChars_append, List.map_append]
  rfl

theorem split_of_notMem (h : sep ∉ s.toList) : split sep s = [s] := by
  rw [split, splitChars_of_notMem h, List.map_singleton, String.ofList_toList]

end KclModels.Text
