import KclModels.Kcl.TypeText
import KclModels.Proofs.Decimal.Text
import KclModels.Proofs.Kcl.Quoted

/-!
# A literal says which value it is

No literal goes on where another ends, and the first character of one tells the kind of value. So a
text begins with one literal at most, as long as what follows cannot belong to a number, and values
with one literal are the same: texts are read back up to their closing quote, numbers are told by
their texts, and collections are taken apart entry by entry.
-/

namespace KclModels

namespace Value

/-- All numbers in the value are finite, as in JSON. -/
inductive IsFinite : Value → Prop
  | null : IsFinite .null
  | bool (b : Bool) : IsFinite (.bool b)
  | num {n : Number} : n.IsFinite → IsFinite (.num n)
  | str (s : String) : IsFinite (.str s)
  | arr {items : List Value} : (∀ v ∈ items, IsFinite v) → IsFinite (.arr items)
  | obj {fields : List (String × Value)} : (∀ f ∈ fields, IsFinite f.2) → IsFinite (.obj fields)

/-- The kinds of values. -/
inductive Kind
  | null
  | bool
  | num
  | str
  | arr
  | obj
deriving DecidableEq

def kind : Value → Kind
  | .null => .null
  | .bool _ => .bool
  | .num _ => .num
  | .str _ => .str
  | .arr _ => .arr
  | .obj _ => .obj

/-- The kind of value that a literal is of, by its first character. -/
def kindOf? (c : Char) : Option Kind :=
  if c = 'N' then some .null
  else if c = 'T' ∨ c = 'F' then some .bool
  else if c = '"' then some .str
  else if c = '[' then some .arr
  else if c = '\x7b' then some .obj
  else if Double.isNumberChar c then some .num
  else none

end Value

namespace Kcl

open Value (kindOf?)

variable {v w : Value} {k k' : List Char}

/-- The literal of a field. -/
def fieldLiteral (f : String × Value) : String := quote f.1 ++ ": " ++ literal f.2

theorem itemLiterals_eq (items : List Value) : itemLiterals items = items.map literal := by
  induction items with
  | nil => rfl
  | cons v rest ih => rw [itemLiterals, ih, List.map_cons]

theorem fieldLiterals_eq (fields : List (String × Value)) :
    fieldLiterals fields = fields.map fieldLiteral := by
  induction fields with
  | nil => rfl
  | cons f rest ih =>
    obtain ⟨name, v⟩ := f
    rw [fieldLiterals, ih, List.map_cons, fieldLiteral]

/-! ## Where a literal ends -/

/-- No number goes on in a text. -/
def Ends (k : List Char) : Prop := k.head?.all fun c => !Double.isNumberChar c

/-- Only one entry can stand before the rest of a text. -/
def Separable {α : Type} (p : α → String) (a b : α) : Prop :=
  ∀ k k', Ends k → Ends k' → (p a).toList ++ k = (p b).toList ++ k' → a = b ∧ k = k'

theorem append_inj_of_all {p : Char → Bool} {cs ds : List Char} (hcs : ∀ c ∈ cs, p c = true)
    (hds : ∀ c ∈ ds, p c = true) (hk : k.head?.all fun c => !p c) (hk' : k'.head?.all fun c => !p c)
    (h : cs ++ k = ds ++ k') : cs = ds ∧ k = k' := by
  induction cs generalizing ds with
  | nil =>
    cases ds with
    | nil => exact ⟨rfl, h⟩
    | cons d ds =>
      obtain rfl : k = d :: (ds ++ k') := h
      simp [hds d List.mem_cons_self] at hk
  | cons c cs ih =>
    cases ds with
    | nil =>
      obtain rfl : c :: (cs ++ k) = k' := h
      simp [hcs c List.mem_cons_self] at hk'
    | cons d ds =>
      obtain ⟨rfl, htail⟩ := List.cons.inj h
      obtain ⟨rfl, hrest⟩ := ih (fun a ha => hcs a (List.mem_cons_of_mem c ha))
        (fun a ha => hds a (List.mem_cons_of_mem c ha)) htail
      exact ⟨rfl, hrest⟩

theorem quote_append_inj {s t : String} (h : (quote s).toList ++ k = (quote t).toList ++ k') :
    s = t ∧ k = k' := by
  simp only [quote_toList, quotedBy, List.cons_append, List.append_assoc, List.nil_append,
    List.cons.injEq, true_and] at h
  have hread := congrArg readQuoted h
  rw [readQuoted_append, readQuoted_append, Option.some.injEq, Prod.mk.injEq,
    String.toList_inj] at hread
  exact hread

/-! ## Entries of collections -/

/-- The entries after the first one, each behind a comma. -/
def furtherEntries {α : Type} (p : α → String) (entries : List α) : List Char :=
  entries.flatMap fun a => ',' :: ' ' :: (p a).toList

section Entries

variable {α : Type} {p : α → String} {close : Char} {as bs : List α}

theorem intercalate_cons (p : α → String) (a : α) (rest : List α) :
    (", ".intercalate ((a :: rest).map p)).toList = (p a).toList ++ furtherEntries p rest := by
  induction rest generalizing a with
  | nil => simp [furtherEntries]
  | cons b rest ih =>
    rw [List.map_cons, List.map_cons, String.intercalate_cons_cons, String.toList_append,
      String.toList_append, ← List.map_cons, ih, List.append_assoc]
    rfl

theorem ends_furtherEntries (hclose : Double.isNumberChar close = false) (k : List Char) :
    Ends (furtherEntries p as ++ close :: k) := by
  cases as with
  | nil =>
    change Option.all _ (some close) = true
    rw [Option.all_some, hclose]
    rfl
  | cons a rest => exact rfl

theorem furtherEntries_inj (hclose : Double.isNumberChar close = false) (hcomma : close ≠ ',')
    (h : ∀ a ∈ as, ∀ b ∈ bs, Separable p a b)
    (heq : furtherEntries p as ++ close :: k = furtherEntries p bs ++ close :: k') :
    as = bs ∧ k = k' := by
  induction as generalizing bs with
  | nil =>
    cases bs with
    | nil => exact ⟨rfl, (List.cons.inj heq).2⟩
    | cons b bs => exact absurd (List.cons.inj heq).1 hcomma
  | cons a as ih =>
    cases bs with
    | nil => exact absurd (List.cons.inj heq).1.symm hcomma
    | cons b bs =>
      simp only [furtherEntries, List.flatMap_cons, List.cons_append, List.append_assoc,
        List.cons.injEq, true_and] at heq
      obtain ⟨rfl, hrest⟩ := h a List.mem_cons_self b List.mem_cons_self _ _
        (ends_furtherEntries hclose k) (ends_furtherEntries hclose k') heq
      obtain ⟨rfl, hk⟩ := ih (fun a ha b hb => h a (List.mem_cons_of_mem _ ha) b
        (List.mem_cons_of_mem _ hb)) hrest
      exact ⟨rfl, hk⟩

/-- **Collections are taken apart entry by entry.** -/
theorem entries_inj (hclose : Double.isNumberChar close = false) (hcomma : close ≠ ',')
    (h : ∀ a ∈ as, ∀ b ∈ bs, Separable p a b)
    (has : ∀ a ∈ as, ∃ c cs, (p a).toList = c :: cs ∧ c ≠ close)
    (hbs : ∀ b ∈ bs, ∃ c cs, (p b).toList = c :: cs ∧ c ≠ close)
    (heq : (", ".intercalate (as.map p)).toList ++ close :: k =
      (", ".intercalate (bs.map p)).toList ++ close :: k') : as = bs ∧ k = k' := by
  cases as with
  | nil =>
    cases bs with
    | nil => exact ⟨rfl, by simpa using heq⟩
    | cons b bs =>
      -- one text closes at once, the other begins an entry
      obtain ⟨c, cs, hc, hne⟩ := hbs b List.mem_cons_self
      rw [intercalate_cons, hc] at heq
      exact absurd (List.cons.inj heq).1.symm hne
  | cons a as =>
    cases bs with
    | nil =>
      obtain ⟨c, cs, hc, hne⟩ := has a List.mem_cons_self
      rw [intercalate_cons, hc] at heq
      exact absurd (List.cons.inj heq).1 hne
    | cons b bs =>
      rw [intercalate_cons, intercalate_cons, List.append_assoc, List.append_assoc] at heq
      -- the first entries end where a comma or the bracket follows, so they are one entry
      obtain ⟨rfl, hrest⟩ := h a List.mem_cons_self b List.mem_cons_self _ _
        (ends_furtherEntries hclose k) (ends_furtherEntries hclose k') heq
      obtain ⟨rfl, hk⟩ := furtherEntries_inj hclose hcomma (fun a ha b hb =>
        h a (List.mem_cons_of_mem _ ha) b (List.mem_cons_of_mem _ hb)) hrest
      exact ⟨rfl, hk⟩

end Entries

/-! ## Values -/

theorem kindOf?_of_isNumberChar {c : Char} (h : Double.isNumberChar c = true) :
    kindOf? c = some .num := by
  have hne : ∀ d : Char, Double.isNumberChar d = false → c ≠ d := by
    rintro d hd rfl
    rw [h] at hd
    exact absurd hd (by decide)
  rw [kindOf?, if_neg (hne 'N' (by decide)),
    if_neg (not_or.mpr ⟨hne 'T' (by decide), hne 'F' (by decide)⟩), if_neg (hne '"' (by decide)),
    if_neg (hne '[' (by decide)), if_neg (hne '\x7b' (by decide)), if_pos h]

theorem literal_toList_arr (items : List Value) : (literal (.arr items)).toList =
    '[' :: ((", ".intercalate (items.map literal)).toList ++ [']']) := by
  rw [literal, itemLiterals_eq, String.toList_append, String.toList_append]
  rfl

theorem literal_toList_obj (fields : List (String × Value)) : (literal (.obj fields)).toList =
    '\x7b' :: ((", ".intercalate (fields.map fieldLiteral)).toList ++ ['\x7d']) := by
  rw [literal, fieldLiterals_eq, String.toList_append, String.toList_append]
  rfl

/-- **The first character of a literal tells the kind of value.** -/
theorem literal_head (hv : v.IsFinite) :
    ∃ c cs, (literal v).toList = c :: cs ∧ kindOf? c = some v.kind := by
  cases hv with
  | null => exact ⟨'N', "one".toList, rfl, rfl⟩
  | bool b =>
    cases b
    · exact ⟨'F', "alse".toList, rfl, rfl⟩
    · exact ⟨'T', "rue".toList, rfl, rfl⟩
  | num hn =>
    rename_i n
    obtain ⟨c, cs, hcons⟩ := List.exists_cons_of_ne_nil (Number.text_ne_nil hn)
    have hc := Number.isNumberChar_of_mem_text hn (hcons ▸ List.mem_cons_self)
    exact ⟨c, cs, hcons, kindOf?_of_isNumberChar hc⟩
  | str s => exact ⟨'"', _, quote_toList s, rfl⟩
  | arr _ => exact ⟨'[', _, literal_toList_arr _, rfl⟩
  | obj _ => exact ⟨'\x7b', _, literal_toList_obj _, rfl⟩

/-- A list ends with what no value begins with. -/
theorem literal_head_ne_bracket (hv : v.IsFinite) :
    ∃ c cs, (literal v).toList = c :: cs ∧ c ≠ ']' := by
  obtain ⟨c, cs, hc, hkind⟩ := literal_head hv
  refine ⟨c, cs, hc, ?_⟩
  rintro rfl
  exact absurd hkind (by simp [kindOf?, Double.isNumberChar])

theorem fieldLiteral_head (f : String × Value) :
    ∃ c cs, (fieldLiteral f).toList = c :: cs ∧ c ≠ '\x7d' := by
  refine ⟨'"', f.1.toList.flatMap literalChar ++ ['"'] ++ (": ".toList ++ (literal f.2).toList), ?_,
    by decide⟩
  rw [fieldLiteral, String.toList_append, String.toList_append, quote_toList, quotedBy,
    List.append_assoc]
  rfl

theorem kind_eq_of_append_eq (hv : v.IsFinite) (hw : w.IsFinite)
    (h : (literal v).toList ++ k = (literal w).toList ++ k') : v.kind = w.kind := by
  obtain ⟨c, cs, hc, hkind⟩ := literal_head hv
  obtain ⟨d, ds, hd, hkind'⟩ := literal_head hw
  rw [hc, hd] at h
  rw [← Option.some.injEq, ← hkind, ← hkind', (List.cons.inj h).1]

theorem fieldLiteral_separable {f g : String × Value} (h : Separable literal f.2 g.2) :
    Separable fieldLiteral f g := by
  intro k k' hk hk' heq
  obtain ⟨name, v⟩ := f
  obtain ⟨name', w⟩ := g
  simp only [fieldLiteral, String.toList_append, List.append_assoc] at heq
  obtain ⟨rfl, hrest⟩ := quote_append_inj heq
  obtain ⟨rfl, hk⟩ := h k k' hk hk' (List.append_cancel_left hrest)
  exact ⟨rfl, hk⟩

/-- **One literal at most stands at the beginning of a text.** -/
theorem literal_separable (hv : v.IsFinite) (hw : w.IsFinite) : Separable literal v w := by
  induction hv generalizing w with
  | null =>
    intro k k' hk hk' heq
    -- the first character tells the kind, so only values of one kind are left in each case
    have hkind := kind_eq_of_append_eq .null hw heq
    cases hw with
    | null => exact ⟨rfl, List.append_cancel_left heq⟩
    | _ => simp [Value.kind] at hkind
  | bool b =>
    intro k k' hk hk' heq
    have hkind := kind_eq_of_append_eq (.bool b) hw heq
    cases hw with
    | bool b' =>
      cases b <;> cases b'
      · exact ⟨rfl, List.append_cancel_left heq⟩
      · exact absurd (List.cons.inj heq).1 (by decide)
      · exact absurd (List.cons.inj heq).1 (by decide)
      · exact ⟨rfl, List.append_cancel_left heq⟩
    | _ => simp [Value.kind] at hkind
  | num hn =>
    intro k k' hk hk' heq
    have hkind := kind_eq_of_append_eq (.num hn) hw heq
    cases hw with
    | num hm =>
      -- a number ends where no character of a number follows
      obtain ⟨htext, hrest⟩ := append_inj_of_all (fun c => Number.isNumberChar_of_mem_text hn)
        (fun c => Number.isNumberChar_of_mem_text hm) hk hk' heq
      exact ⟨by rw [Number.eq_of_text_eq hn hm (String.toList_inj.mp htext)], hrest⟩
    | _ => simp [Value.kind] at hkind
  | str s =>
    intro k k' hk hk' heq
    have hkind := kind_eq_of_append_eq (.str s) hw heq
    cases hw with
    | str t =>
      obtain ⟨rfl, hrest⟩ := quote_append_inj heq
      exact ⟨rfl, hrest⟩
    | _ => simp [Value.kind] at hkind
  | arr hitems ih =>
    intro k k' hk hk' heq
    have hkind := kind_eq_of_append_eq (.arr hitems) hw heq
    cases hw with
    | arr hitems' =>
      simp only [literal_toList_arr, List.cons_append, List.append_assoc, List.nil_append,
        List.cons.injEq, true_and] at heq
      obtain ⟨rfl, hrest⟩ := entries_inj (by decide) (by decide)
        (fun v hv w hw => ih v hv (hitems' w hw))
        (fun v hv => literal_head_ne_bracket (hitems v hv))
        (fun w hw => literal_head_ne_bracket (hitems' w hw)) heq
      exact ⟨rfl, hrest⟩
    | _ => simp [Value.kind] at hkind
  | obj hfields ih =>
    intro k k' hk hk' heq
    have hkind := kind_eq_of_append_eq (.obj hfields) hw heq
    cases hw with
    | obj hfields' =>
      simp only [literal_toList_obj, List.cons_append, List.append_assoc, List.nil_append,
        List.cons.injEq, true_and] at heq
      obtain ⟨rfl, hrest⟩ := entries_inj (by decide) (by decide)
        (fun f hf g hg => fieldLiteral_separable (ih f hf (hfields' g hg)))
        (fun f _ => fieldLiteral_head f) (fun f _ => fieldLiteral_head f) heq
      exact ⟨rfl, hrest⟩
    | _ => simp [Value.kind] at hkind

theorem eq_of_literal_eq (hv : v.IsFinite) (hw : w.IsFinite) (h : literal v = literal w) :
    v = w :=
  (literal_separable hv hw [] [] rfl rfl (by rw [h])).1

/--
**Literals are unambiguous**: the value is known from its literal, however deep it is nested, with
the order of its fields; and the text from a quoted literal, in whose body no line break, no tab and
no quote stands as it is, whatever follows the literal.
-/
theorem literals_unambiguous :
    (∀ v w : Value, v.IsFinite → w.IsFinite → literal v = literal w → v = w) ∧
      ∀ s : String, ∃ body, (quote s).toList = '"' :: body ++ ['"'] ∧
        (∀ c ∈ body, c ≠ '\n' ∧ c ≠ '\r' ∧ c ≠ '\t') ∧
        (∀ before after, body = before ++ '"' :: after → Odd (closingSlashes 0 before)) ∧
        ∀ rest, readQuoted (body ++ '"' :: rest) = some (s.toList, rest) := by
  refine ⟨fun v w => eq_of_literal_eq, fun s => ⟨_, quote_toList s, ?_, ?_, ?_⟩⟩
  · intro c hc
    obtain ⟨d, -, hcd⟩ := List.mem_flatMap.mp hc
    have hnot : ¬(c = '\n' ∨ c = '\r' ∨ c = '\t') := fun h => notMem_literalChar h d hcd
    simpa only [not_or] using hnot
  · exact fun before after => literalChar_escapes.odd_closingSlashes Even.zero
  · exact readQuoted_append s.toList

/-- A name that looks like the end of its literal, and a list within a list. -/
def latch : Value := .obj [("a\": [", .arr [.num (.int (-1)), .arr [.null]]), ("b", .str "]\\")]

/-- `latch` is the one value with its literal. -/
theorem latch_of_literal :
    literal latch = "\x7b\"a\\\": [\": [-1, [None]], \"b\": \"]\\\\\"\x7d" ∧ latch.IsFinite ∧
      ∀ w : Value, w.IsFinite → literal w = literal latch → w = latch := by
  have hfinite : latch.IsFinite := by
    refine .obj fun f hf => ?_
    simp only [List.mem_cons, List.not_mem_nil, or_false] at hf
    rcases hf with rfl | rfl
    · refine .arr fun v hv => ?_
      simp only [List.mem_cons, List.not_mem_nil, or_false] at hv
      rcases hv with rfl | rfl
      · exact .num trivial
      · refine .arr fun v hv => ?_
        rw [List.mem_singleton.mp hv]
        exact .null
    · exact .str _
  exact ⟨by decide +kernel, hfinite, fun w hw => literals_unambiguous.1 w latch hw hfinite⟩

end Kcl

end KclModels

/-!
## Texts put together

Literals and types are put together of quoted texts and of marks that hold neither quotes nor line
breaks. What is true of these and stays true when two texts are joined by a mark is true of every
literal and of the type of every attribute.
-/

namespace KclModels.Kcl

/-- Neither a quote nor a line break. -/
def isInert (c : Char) : Bool := c != '"' && c != '\n' && c != '\r'

/-- A text without quotes and line breaks. -/
def Inert (s : String) : Prop := s.toList.all isInert = true

instance (s : String) : Decidable (Inert s) :=
  inferInstanceAs (Decidable (s.toList.all isInert = true))

/-- True of inert texts and of quoted ones, and kept when an inert mark joins two texts. -/
structure Spliced (P : String → Prop) : Prop where
  inert {s : String} : Inert s → P s
  quoted (s : String) : P (quote s)
  join {a sep b : String} : sep ≠ "" → Inert sep → P a → P b → P (a ++ sep ++ b)

variable {P : String → Prop} {m : Model} {texts : List String} {s t text sep : String}

theorem Inert.notMem {c : Char} (h : Inert s) (hc : isInert c = false) : c ∉ s.toList := fun hmem =>
  absurd (List.all_eq_true.mp h c hmem) (by simp [hc])

theorem number_inert (n : Number) : Inert n.text := by
  refine List.all_eq_true.mpr fun c hc => ?_
  have hne : ∀ d, Double.isNumberChar d = false → d ∉ "-NaNinf".toList → c ≠ d := by
    rintro d hnumber hword rfl
    exact n.notMem_text hnumber hword hc
  simp [isInert, hne '"' (by decide) (by decide), hne '\n' (by decide) (by decide),
    hne '\r' (by decide) (by decide)]

namespace Spliced

/-- A text between marks. -/
theorem between (h : Spliced P) (hne : s ≠ "") (hne' : t ≠ "") (hs : Inert s) (ht : Inert t)
    (htext : P text) : P (s ++ text ++ t) := by
  have hempty : P "" := h.inert (by decide)
  have hleft : P ("" ++ s ++ text) := h.join hne hs hempty htext
  have hboth : P ("" ++ s ++ text ++ t ++ "") := h.join hne' ht hleft hempty
  simpa using hboth

theorem intercalate (h : Spliced P) (hne : sep ≠ "") (hsep : Inert sep)
    (htexts : ∀ text ∈ texts, P text) : P (sep.intercalate texts) := by
  induction texts with
  | nil => exact h.inert (by simp [Inert])
  | cons text rest ih =>
    have htext := htexts text List.mem_cons_self
    cases rest with
    | nil => exact htext
    | cons next rest =>
      rw [String.intercalate_cons_cons]
      exact h.join hne hsep htext (ih fun t ht => htexts t (List.mem_cons_of_mem text ht))

/-- **What splicing keeps is true of every literal**, by induction on the value. -/
theorem literal (h : Spliced P) (v : Value) : P (literal v) := by
  induction v using Value.induct with
  | null => exact h.inert (by decide)
  | bool b => cases b <;> exact h.inert (by decide)
  | num n => exact h.inert (number_inert n)
  | str s => exact h.quoted s
  | arr items ih =>
    rw [Kcl.literal, itemLiterals_eq]
    refine h.between (by decide) (by decide) (by decide) (by decide) ?_
    exact h.intercalate (by decide) (by decide) (List.forall_mem_map.mpr ih)
  | obj fields ih =>
    rw [Kcl.literal, fieldLiterals_eq]
    refine h.between (by decide) (by decide) (by decide) (by decide) ?_
    refine h.intercalate (by decide) (by decide) (List.forall_mem_map.mpr fun f hf => ?_)
    exact h.join (by decide) (by decide) (h.quoted f.1) (ih f hf)

theorem union (h : Spliced P) (values : List Value) : P (union values) :=
  h.intercalate (by decide) (by decide) (List.forall_mem_map.mpr fun v _ => h.literal v)

/-- The type of an attribute is quoted, a choice between literals, or the type of the model. -/
theorem attributeType (h : Spliced P) (htype : P m.type.kclType) : P (attributeType m) := by
  unfold Kcl.attributeType
  split
  · exact h.quoted _
  · split
    · exact h.union _
    · split
      · exact h.between (by decide) (by decide) (by decide) (by decide) (h.union _)
      · unfold typeText
        split
        · exact h.inert (by decide)
        · exact htype

end Spliced

end KclModels.Kcl
