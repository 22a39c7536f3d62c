import Mathlib.Data.String.Basic
import KclModels.Proofs.Registry.Grounded
import KclModels.Proofs.Text.Cut

/-!
# Written pointers

A pointer is written as its tokens with slashes between them, after `#/`. In a token `~` stands for an
escape, so a tilde is written `~0` and a slash `~1`. Reading the tokens of a pointer gives those that
were written; it takes pointers that are written otherwise too, with tildes that begin no escape and
with nothing between two slashes, and `Reads` says what it makes of each. The name that a reference
has is the rest of its text as it stands, with the escapes still in it.
-/

namespace KclModels.Reference

variable {c : Char} {cs ds : List Char} {reference token owner n : String} {tokens : List String}

/-! ## Tokens -/

/-- One character of a token as a pointer writes it. -/
def escapeChar (c : Char) : List Char :=
  match c with
  | '~' => ['~', '0']
  | '/' => ['~', '1']
  | c => [c]

/-- A token as a pointer writes it. -/
def escape (token : String) : String := String.ofList (token.toList.flatMap escapeChar)

theorem escapeChar_of_ne (htilde : c ≠ '~') (hslash : c ≠ '/') : escapeChar c = [c] := by
  unfold escapeChar
  split
  · exact absurd rfl htilde
  · exact absurd rfl hslash
  · rfl

theorem unescapeSlash_cons (h : c ≠ '~') : unescapeSlash (c :: cs) = c :: unescapeSlash cs := by
  rw [unescapeSlash]
  exact fun _ heq => absurd heq h

theorem unescapeTilde_cons (h : c ≠ '~') : unescapeTilde (c :: cs) = c :: unescapeTilde cs := by
  rw [unescapeTilde]
  exact fun _ heq => absurd heq h

/-- Slashes are unescaped first, which leaves the tildes escaped: no slash comes of `~01`. -/
theorem unescapeTilde_unescapeSlash (cs : List Char) :
    unescapeTilde (unescapeSlash (cs.flatMap escapeChar)) = cs := by
  induction cs with
  | nil => rfl
  | cons c cs ih =>
    rw [List.flatMap_cons]
    by_cases htilde : c = '~'
    · subst htilde
      have hslashes : unescapeSlash ('~' :: '0' :: cs.flatMap escapeChar) =
          '~' :: '0' :: unescapeSlash (cs.flatMap escapeChar) := by simp [unescapeSlash]
      show unescapeTilde (unescapeSlash ('~' :: '0' :: cs.flatMap escapeChar)) = _
      rw [hslashes, unescapeTilde, ih]
    · by_cases hslash : c = '/'
      · subst hslash
        show unescapeTilde (unescapeSlash ('~' :: '1' :: cs.flatMap escapeChar)) = _
        rw [unescapeSlash, unescapeTilde_cons (by decide), ih]
      · rw [escapeChar_of_ne htilde hslash, List.singleton_append, unescapeSlash_cons htilde,
          unescapeTilde_cons htilde, ih]

/-- **Escaping is undone exactly.** -/
@[simp]
theorem unescape_escape (token : String) : unescape (escape token).toList = token := by
  rw [unescape, escape, String.toList_ofList, unescapeTilde_unescapeSlash, String.ofList_toList]

theorem escape_injective (h : escape token = escape owner) : token = owner := by
  rw [← unescape_escape token, h, unescape_escape]

/-- A token is written without slashes. -/
theorem slash_notMem_escape (token : String) : '/' ∉ (escape token).toList := by
  rw [escape, String.toList_ofList, List.mem_flatMap]
  rintro ⟨c, -, hc⟩
  by_cases htilde : c = '~'
  · subst htilde
    exact absurd hc (by decide)
  · by_cases hslash : c = '/'
    · subst hslash
      exact absurd hc (by decide)
    · rw [escapeChar_of_ne htilde hslash, List.mem_singleton] at hc
      exact hslash hc.symm

theorem escape_ne_empty (h : token ≠ "") : escape token ≠ "" := by
  rintro hempty
  exact h (escape_injective (hempty.trans rfl))

/-! ## Pointers -/

/-- The pointer with these tokens. -/
def pointer (tokens : List String) : String := "#/" ++ "/".intercalate (tokens.map escape)

theorem isLocal_pointer (tokens : List String) : isLocal (pointer tokens) = true :=
  Text.begins_append _ _

theorem splitChars_intercalate {pieces : List (List Char)} (hne : pieces ≠ [])
    (h : ∀ piece ∈ pieces, '/' ∉ piece) :
    Text.splitChars '/' (['/'].intercalate pieces) = pieces := by
  induction pieces with
  | nil => exact absurd rfl hne
  | cons piece rest ih =>
    obtain ⟨hpiece, hrest⟩ := List.forall_mem_cons.mp h
    cases rest with
    | nil => rw [List.intercalate_singleton, Text.splitChars_of_notMem hpiece]
    | cons next rest =>
      rw [List.intercalate_cons_cons, List.append_assoc, List.singleton_append,
        Text.splitChars_append, Text.splitChars_of_notMem hpiece,
        ih (List.cons_ne_nil _ _) hrest, List.singleton_append]

/-- Of the pieces between the slashes those count that are not empty. -/
theorem filter_splitChars_intercalate {pieces : List (List Char)}
    (h : ∀ piece ∈ pieces, '/' ∉ piece) :
    (Text.splitChars '/' (['/'].intercalate pieces)).filter (!·.isEmpty) =
      pieces.filter (!·.isEmpty) := by
  cases pieces with
  | nil => rfl
  | cons piece rest => rw [splitChars_intercalate (List.cons_ne_nil _ _) h]

/-- The tokens are those of the pieces that the text is put together from. -/
theorem tokens_of_pieces {pieces : List String} (h : ∀ piece ∈ pieces, '/' ∉ piece.toList) :
    Reference.tokens ("#/" ++ "/".intercalate pieces) =
      (pieces.filter (!·.isEmpty)).map fun piece => unescape piece.toList := by
  have hbody : ("#/" ++ "/".intercalate pieces).toList.dropWhile (· = '#') =
      '/' :: ['/'].intercalate (pieces.map String.toList) := by
    rw [String.toList_append, String.toList_intercalate]
    rfl
  have hpieces : ∀ piece ∈ pieces.map String.toList, '/' ∉ piece := by
    intro piece hp
    obtain ⟨text, htext, rfl⟩ := List.mem_map.mp hp
    exact h text htext
  rw [Reference.tokens, hbody, Text.splitChars, if_pos rfl, List.filter_cons_of_neg (by simp),
    filter_splitChars_intercalate hpieces, List.filter_map, List.map_map]
  have hempty : ((!·.isEmpty) ∘ String.toList) = fun piece => !piece.isEmpty := by
    funext piece
    rw [Bool.eq_iff_iff]
    simp
  rw [hempty]
  rfl

/-- **A pointer has the tokens that it was written with.** -/
theorem tokens_pointer (h : ∀ token ∈ tokens, token ≠ "") :
    Reference.tokens (pointer tokens) = tokens := by
  have hfull : (tokens.map escape).filter (!·.isEmpty) = tokens.map escape := by
    rw [List.filter_eq_self]
    intro piece hp
    obtain ⟨token, htoken, rfl⟩ := List.mem_map.mp hp
    simpa using escape_ne_empty (h token htoken)
  have hplain : ∀ piece ∈ tokens.map escape, '/' ∉ piece.toList := by
    intro piece hp
    obtain ⟨token, -, rfl⟩ := List.mem_map.mp hp
    exact slash_notMem_escape token
  rw [pointer, tokens_of_pieces hplain, hfull, List.map_map]
  exact (List.map_congr_left fun token _ => unescape_escape token).trans (List.map_id tokens)

/-! ## Reading -/

/--
`Unescapes cs ds`: without escapes, `cs` is `ds`. The escapes are `~1` for a slash and `~0` for a
tilde; a tilde before anything else is just that.
-/
inductive Unescapes : List Char → List Char → Prop
  | nil : Unescapes [] []
  | slash {cs ds : List Char} : Unescapes cs ds → Unescapes ('~' :: '1' :: cs) ('/' :: ds)
  | tilde {cs ds : List Char} : Unescapes cs ds → Unescapes ('~' :: '0' :: cs) ('~' :: ds)
  | char {c : Char} {cs ds : List Char} :
      (c = '~' → cs.head? ≠ some '0' ∧ cs.head? ≠ some '1') → Unescapes cs ds →
      Unescapes (c :: cs) (c :: ds)

/--
`Reads reference tokens`: the reference is `#/` and pieces with slashes between them, and without
escapes the pieces that are not empty are the tokens.
-/
def Reads (reference : String) (tokens : List String) : Prop :=
  ∃ pieces : List String, (∀ piece ∈ pieces, '/' ∉ piece.toList) ∧
    reference = "#/" ++ "/".intercalate pieces ∧
    List.Forall₂ (fun piece token => Unescapes piece.toList token.toList)
      (pieces.filter (!·.isEmpty)) tokens

/-- Undoing slashes makes no digit that was not there. -/
theorem head?_unescapeSlash (h : cs.head? ≠ some '0') : (unescapeSlash cs).head? ≠ some '0' := by
  fun_cases unescapeSlash cs <;> simp_all

theorem unescapeSlash_tilde (h : cs.head? ≠ some '1') :
    unescapeSlash ('~' :: cs) = '~' :: unescapeSlash cs := by
  rw [unescapeSlash]
  rintro rest - rfl
  exact h rfl

theorem unescapeTilde_tilde (h : cs.head? ≠ some '0') :
    unescapeTilde ('~' :: cs) = '~' :: unescapeTilde cs := by
  rw [unescapeTilde]
  rintro rest - rfl
  exact h rfl

theorem Unescapes.eq (h : Unescapes cs ds) : unescapeTilde (unescapeSlash cs) = ds := by
  induction h with
  | nil => rfl
  | slash _ ih => rw [unescapeSlash, unescapeTilde_cons (by decide), ih]
  | tilde _ ih =>
    rw [unescapeSlash_tilde (by simp), unescapeSlash_cons (by decide), unescapeTilde, ih]
  | @char c cs ds hnot _ ih =>
    by_cases htilde : c = '~'
    · obtain ⟨hzero, hone⟩ := hnot htilde
      rw [htilde, unescapeSlash_tilde hone, unescapeTilde_tilde (head?_unescapeSlash hzero), ih]
    · rw [unescapeSlash_cons htilde, unescapeTilde_cons htilde, ih]

/-- Every text is read in some way. -/
theorem exists_unescapes : ∀ cs : List Char, ∃ ds, Unescapes cs ds
  | [] => ⟨[], .nil⟩
  | [c] => ⟨[c], .char (by simp) .nil⟩
  | c :: d :: cs => by
    obtain ⟨ds, hrest⟩ := exists_unescapes cs
    obtain ⟨ds', hrest'⟩ := exists_unescapes (d :: cs)
    by_cases htilde : c = '~'
    · subst htilde
      by_cases hone : d = '1'
      · exact hone ▸ ⟨_, .slash hrest⟩
      · by_cases hzero : d = '0'
        · exact hzero ▸ ⟨_, .tilde hrest⟩
        · exact ⟨_, .char (fun _ => by simp [hone, hzero]) hrest'⟩
    · exact ⟨_, .char (fun h => absurd h htilde) hrest'⟩

theorem unescapes_iff : Unescapes cs token.toList ↔ unescape cs = token := by
  rw [unescape, ← String.toList_inj, String.toList_ofList]
  constructor
  · exact Unescapes.eq
  · rintro h
    obtain ⟨ds, hds⟩ := exists_unescapes cs
    exact h ▸ hds.eq ▸ hds

/-- **References are read as they are written.** -/
theorem reads_iff : Reads reference tokens ↔
    isLocal reference = true ∧ Reference.tokens reference = tokens := by
  unfold Reads
  simp only [unescapes_iff]
  constructor
  · rintro ⟨pieces, hplain, rfl, hread⟩
    refine ⟨Text.begins_append _ _, ?_⟩
    rw [tokens_of_pieces hplain]
    exact List.forall₂_eq_eq_eq ▸ List.forall₂_map_left_iff.mpr hread
  · rintro ⟨hlocal, rfl⟩
    obtain ⟨rest, hrest⟩ := Option.isSome_iff_exists.mp hlocal
    have hplain : ∀ piece ∈ Text.split '/' rest, '/' ∉ piece.toList := by
      intro piece hp
      obtain ⟨cs, hcs, rfl⟩ := List.mem_map.mp hp
      rw [String.toList_ofList]
      exact Text.notMem_of_mem_splitChars hcs
    have hpieces : reference = "#/" ++ "/".intercalate (Text.split '/' rest) := by
      rw [Text.eq_of_after? hrest]
      exact congrArg _ (Text.intercalate_split '/' rest).symm
    refine ⟨_, hplain, hpieces, ?_⟩
    rw [hpieces, tokens_of_pieces hplain]
    exact List.forall₂_map_right_iff.mpr (List.forall₂_same.mpr fun _ _ => rfl)

/-- A written pointer is read as the tokens that it was written with. -/
theorem reads_pointer {read : List String} (h : ∀ token ∈ tokens, token ≠ "") :
    Reads (pointer tokens) read ↔ tokens = read := by
  rw [reads_iff, tokens_pointer h, and_iff_right (isLocal_pointer tokens)]

/-! ## Names -/

theorem toList_toDefinition (name : String) :
    (toDefinition name).toList = '#' :: '/' :: ("definitions".toList ++ '/' :: name.toList) := by
  rw [toDefinition, String.toList_append]
  rfl

theorem pointer_definition (owner : String) :
    pointer ["definitions", owner] = toDefinition (escape owner) := by
  have hself : escape "definitions" = "definitions" := by decide
  rw [← String.toList_inj, toList_toDefinition, pointer, String.toList_append,
    String.toList_intercalate, List.map_cons, List.map_singleton, hself, List.map_cons,
    List.map_singleton, List.intercalate_cons_cons, List.intercalate_singleton, List.append_assoc]
  rfl

/-- A reference that names a definition has two tokens, the second of them read from the name. -/
theorem tokens_toDefinition {name : String} (hempty : name ≠ "") (hslash : '/' ∉ name.toList) :
    Reference.tokens (toDefinition name) = ["definitions", unescape name.toList] := by
  have hbody : (toDefinition name).toList.dropWhile (· = '#') =
      '/' :: ("definitions".toList ++ '/' :: name.toList) := by
    rw [toList_toDefinition]
    rfl
  have hname : name.toList.isEmpty = false := by simpa using hempty
  rw [Reference.tokens, hbody, Text.splitChars, if_pos rfl, Text.splitChars_append,
    Text.splitChars_of_notMem (by decide), Text.splitChars_of_notMem hslash]
  simp only [List.singleton_append, List.filter_cons, List.isEmpty_nil, hname]
  rfl

theorem plain_of_name? (h : name? reference = some n) : n ≠ "" ∧ '/' ∉ n.toList := by
  rw [eq_toDefinition h] at h
  constructor
  · rintro rfl
    exact absurd h (by decide)
  · intro hslash
    rw [name?_toDefinition_of_slash hslash] at h
    exact absurd h (by simp)

/-- **Only a pointer of two tokens names a definition**, and the name is the token as written. -/
theorem name?_pointer (h : ∀ token ∈ tokens, token ≠ "") :
    name? (pointer tokens) = some n ↔
      ∃ owner, tokens = ["definitions", owner] ∧ n = escape owner := by
  constructor
  · intro hname
    obtain ⟨hempty, hslash⟩ := plain_of_name? hname
    have hreference := eq_toDefinition hname
    have htokens : tokens = ["definitions", unescape n.toList] := by
      rw [← tokens_pointer h, hreference, tokens_toDefinition hempty hslash]
    rw [htokens, pointer_definition, toDefinition_inj] at hreference
    exact ⟨_, htokens, hreference.symm⟩
  · rintro ⟨owner, rfl, rfl⟩
    rw [pointer_definition]
    exact name?_toDefinition (escape_ne_empty (h owner (by simp))) (slash_notMem_escape owner)

end KclModels.Reference
