import Mathlib.Algebra.Ring.Parity
import Mathlib.Data.List.Infix
import KclModels.Kcl.Literal
import KclModels.Naming.Identifier

/-!
# Quoted texts

A text between double quotes has each of its characters as it is or behind a backslash. Two tables
say which: that of string literals, and that of attribute names, which leaves line breaks and tabs
as they are. By either of them no double quote in the text stands alone, and no three of them stand
in a row. A string literal is read back up to its closing quote, whatever follows.
-/

namespace KclModels.Kcl

/-- One character of a quoted attribute name. -/
def attributeChar (c : Char) : List Char :=
  if c = '\\' then ['\\', '\\'] else if c = '"' then ['\\', '"'] else [c]

/-- Each character is written as it is or behind a backslash, a quote never as it is. -/
def Escapes (e : Char → List Char) : Prop :=
  ∀ c, (c ≠ '"' ∧ c ≠ '\\' ∧ e c = [c]) ∨ ∃ d, e c = ['\\', d]

/-- A text between double quotes, each character written by `e`. -/
def quotedBy (e : Char → List Char) (cs : List Char) : List Char := '"' :: cs.flatMap e ++ ['"']

variable {e : Char → List Char} {cs before after a b : List Char} {c : Char}

theorem quote_toList (s : String) : (quote s).toList = quotedBy literalChar s.toList :=
  String.toList_ofList

theorem attributeName_toList {name : String} (h : Naming.isIdentifier name = false) :
    (Naming.attributeName name).toList = quotedBy attributeChar name.toList := by
  rw [Naming.attributeName, if_neg (Bool.eq_false_iff.mp h), String.toList_ofList]
  rfl

theorem literalChar_of_ne (hquote : c ≠ '"') (hslash : c ≠ '\\') (hfeed : c ≠ '\n')
    (hreturn : c ≠ '\r') (htab : c ≠ '\t') : literalChar c = [c] := by
  unfold literalChar
  split <;> first | contradiction | rfl

/-- What `literalChar` does with a character: one of five escapes, or nothing. -/
theorem literalChar_cases (c : Char) :
    (c = '"' ∨ c = '\\' ∨ c = '\n' ∨ c = '\r' ∨ c = '\t') ∨
      (c ≠ '"' ∧ c ≠ '\\' ∧ c ≠ '\n' ∧ c ≠ '\r' ∧ c ≠ '\t' ∧ literalChar c = [c]) := by
  by_cases h : c = '"' ∨ c = '\\' ∨ c = '\n' ∨ c = '\r' ∨ c = '\t'
  · exact Or.inl h
  · simp only [not_or] at h
    obtain ⟨h₁, h₂, h₃, h₄, h₅⟩ := h
    exact Or.inr ⟨h₁, h₂, h₃, h₄, h₅, literalChar_of_ne h₁ h₂ h₃ h₄ h₅⟩

theorem literalChar_escapes : Escapes literalChar := by
  intro c
  rcases literalChar_cases c with (rfl | rfl | rfl | rfl | rfl) | ⟨hquote, hslash, -, -, -, hc⟩
  · exact Or.inr ⟨'"', rfl⟩
  · exact Or.inr ⟨'\\', rfl⟩
  · exact Or.inr ⟨'n', rfl⟩
  · exact Or.inr ⟨'r', rfl⟩
  · exact Or.inr ⟨'t', rfl⟩
  · exact Or.inl ⟨hquote, hslash, hc⟩

theorem attributeChar_escapes : Escapes attributeChar := by
  intro c
  unfold attributeChar
  split
  · exact Or.inr ⟨'\\', rfl⟩
  · rename_i hslash
    split
    · exact Or.inr ⟨'"', rfl⟩
    · rename_i hquote
      exact Or.inl ⟨hquote, hslash, rfl⟩

/-- Line breaks and tabs do not stand in a literal as they are. -/
theorem notMem_literalChar {d : Char} (hd : d = '\n' ∨ d = '\r' ∨ d = '\t') (c : Char) :
    d ∉ literalChar c := by
  rcases literalChar_cases c with hc | ⟨-, -, hfeed, hreturn, htab, hc⟩
  · rcases hc with rfl | rfl | rfl | rfl | rfl <;> rcases hd with rfl | rfl | rfl <;> decide
  · rw [hc, List.mem_singleton]
    rintro rfl
    rcases hd with h | h | h <;> contradiction

/-! ## Quotes that stand alone -/

/-- The number of backslashes after `n` that a text ends in. -/
def closingSlashes (n : Nat) (cs : List Char) : Nat :=
  cs.foldl (fun n c => if c = '\\' then n + 1 else 0) n

/-- **Every quote in the text is escaped**: an odd number of backslashes stands before it. -/
theorem Escapes.odd_closingSlashes (h : Escapes e) : ∀ {n : Nat} {before : List Char}, Even n →
    cs.flatMap e = before ++ '"' :: after → Odd (closingSlashes n before) := by
  induction cs with
  | nil => exact fun _ heq => absurd heq (by simp)
  | cons c cs ih =>
    intro n before hn heq
    rw [List.flatMap_cons] at heq
    rcases h c with ⟨hquote, hslash, hc⟩ | ⟨d, hc⟩
    · rw [hc, List.singleton_append] at heq
      cases before with
      | nil => exact absurd (List.cons.inj heq).1 hquote
      | cons c' before =>
        obtain ⟨rfl, htail⟩ := List.cons.inj heq
        rw [closingSlashes, List.foldl_cons, if_neg hslash]
        exact ih Even.zero htail
    · -- a quote behind the backslash is escaped by it; the pair leaves the count even
      rw [hc, List.cons_append, List.singleton_append] at heq
      cases before with
      | nil => exact absurd (List.cons.inj heq).1 (by decide)
      | cons c' before =>
        obtain ⟨rfl, htail⟩ := List.cons.inj heq
        cases before with
        | nil => exact hn.add_one
        | cons d' before =>
          obtain ⟨rfl, hrest⟩ := List.cons.inj htail
          rw [closingSlashes, List.foldl_cons, List.foldl_cons, if_pos rfl]
          refine ih ?_ hrest
          split
          · exact hn.add (by decide : Even 2)
          · exact Even.zero

/-! ## Quotes in a row -/

/-- No three double quotes stand in a row. -/
def Tame (cs : List Char) : Prop := ¬['"', '"', '"'] <:+: cs

theorem tame_nil : Tame [] := by simp [Tame]

theorem Tame.of_length_lt (h : cs.length < 3) : Tame cs := fun hrow =>
  absurd hrow.length_le (by simpa using h)

theorem Tame.of_notMem (h : '"' ∉ cs) : Tame cs := fun hrow => h (hrow.subset (by simp))

theorem Tame.within (h : Tame b) (hab : a <:+: b) : Tame a := fun hrow => h (hrow.trans hab)

/-- A list that does not hold `c` is on one side of it. -/
theorem infix_append_cons {l : List Char} (hl : c ∉ l) (h : l <:+: a ++ c :: b) :
    l <:+: a ∨ l <:+: b := by
  obtain ⟨p, q, h⟩ := h
  rcases List.append_eq_append_iff.mp h with ⟨t, ha, -⟩ | ⟨t, hpl, hq⟩
  · exact Or.inl ⟨p, t, ha.symm⟩
  · cases t with
    | nil => exact Or.inl ⟨p, [], by simpa using hpl⟩
    | cons c' t =>
      obtain ⟨rfl, rfl⟩ := List.cons.inj hq
      rcases List.append_eq_append_iff.mp hpl with ⟨u, -, hl'⟩ | ⟨u, -, hu⟩
      · exact absurd (hl' ▸ by simp) hl
      · cases u with
        | nil => exact absurd (show c ∈ l by simp [show l = c :: t from hu.symm]) hl
        | cons c' u =>
          obtain ⟨-, rfl⟩ := List.cons.inj hu
          exact Or.inr ⟨u, q, rfl⟩

/-- **What is no quote keeps quotes apart.** -/
theorem tame_append_cons (hc : c ≠ '"') : Tame (a ++ c :: b) ↔ Tame a ∧ Tame b := by
  refine ⟨fun h => ⟨h.within ⟨[], c :: b, rfl⟩, h.within ⟨a ++ [c], [], by simp⟩⟩, ?_⟩
  rintro ⟨ha, hb⟩ hrow
  exact (infix_append_cons (by simpa using hc) hrow).elim ha hb

theorem tame_cons (hc : c ≠ '"') : Tame (c :: b) ↔ Tame b :=
  (tame_append_cons (a := []) hc).trans (and_iff_right tame_nil)

/-- What is written behind any character of a quoted text makes no third quote with it. -/
theorem Escapes.tame_cons (h : Escapes e) (cs : List Char) :
    ∀ first : Char, Tame (first :: (cs.flatMap e ++ ['"'])) := by
  induction cs with
  | nil => exact fun _ => .of_length_lt (by simp)
  | cons c cs ih =>
    intro first
    have hfirst : Tame [first] := .of_length_lt (by simp)
    rw [List.flatMap_cons]
    rcases h c with ⟨hquote, -, hc⟩ | ⟨d, hc⟩
    · rw [hc]
      refine (tame_append_cons (a := [first]) hquote).mpr ⟨hfirst, ?_⟩
      exact (ih first).within (List.infix_cons (List.infix_refl _))
    · rw [hc]
      exact (tame_append_cons (a := [first]) (by decide)).mpr ⟨hfirst, ih d⟩

/-- **A quoted text has no three quotes in a row.** -/
theorem Escapes.tame (h : Escapes e) (cs : List Char) : Tame (quotedBy e cs) := h.tame_cons cs '"'

/-! ## Reading a literal back -/

/-- The character that stands behind a backslash in a literal. -/
def escaped? (c : Char) : Option Char :=
  match c with
  | '"' => some '"'
  | '\\' => some '\\'
  | 'n' => some '\n'
  | 'r' => some '\r'
  | 't' => some '\t'
  | _ => none

/--
Reads a literal after its opening quote: the text, and what follows the closing quote. Line breaks
and tabs do not stand in a literal as they are.
-/
def readQuoted : List Char → Option (List Char × List Char)
  | [] => none
  | '"' :: rest => some ([], rest)
  | '\\' :: c :: rest => do
    let d ← escaped? c
    let (text, rest) ← readQuoted rest
    return (d :: text, rest)
  | c :: rest => do
    if c = '\\' ∨ c = '\n' ∨ c = '\r' ∨ c = '\t' then none
    else
      let (text, rest) ← readQuoted rest
      return (c :: text, rest)

theorem readQuoted_literalChar (c : Char) (rest : List Char) : readQuoted (literalChar c ++ rest) =
    (readQuoted rest).map fun (text, rest) => (c :: text, rest) := by
  rcases literalChar_cases c with hc | ⟨hquote, hslash, hfeed, hreturn, htab, hc⟩
  · have hescape : ∃ d, literalChar c = ['\\', d] ∧ escaped? d = some c := by
      rcases hc with rfl | rfl | rfl | rfl | rfl <;> exact ⟨_, rfl, rfl⟩
    obtain ⟨d, hc, hd⟩ := hescape
    rw [hc, List.cons_append, List.singleton_append, readQuoted, hd]
    cases readQuoted rest <;> rfl
  · rw [hc, List.singleton_append, readQuoted]
    · rw [if_neg (by simp [hslash, hfeed, hreturn, htab])]
      cases readQuoted rest <;> rfl
    · exact hquote
    · exact fun _ _ hcontra => absurd hcontra hslash

/-- **A literal is read back up to its closing quote**, whatever follows. -/
theorem readQuoted_append (cs rest : List Char) :
    readQuoted (cs.flatMap literalChar ++ '"' :: rest) = some (cs, rest) := by
  induction cs with
  | nil => rfl
  | cons c cs ih =>
    rw [List.flatMap_cons, List.append_assoc, readQuoted_literalChar, ih]
    rfl

end KclModels.Kcl
