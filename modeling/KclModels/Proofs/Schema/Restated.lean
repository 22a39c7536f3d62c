import Mathlib.Logic.Function.Basic
import KclModels.Proofs.Assoc.Sorted
import KclModels.Proofs.Schema.Keywords

/-!
# Schemas that are restated

The members of a schema may stand in any order, and a member that is neither a keyword nor an
extension has no effect, in the schema itself and in each schema that stands in it: what is read is
the same, if anything is read at all.

Reading takes one member after the other. Members with different names can change places, because a
keyword sets only its own part of the schema and an extension is kept under its own name; what a
member does is therefore followed on the gist of a draft, which does not show the order in which the
names came.
-/

namespace KclModels.Schema

variable {how : Reading} {name n : String} {v w : Value} {f : Schema → Schema}
  {members members' : List (String × Value)}

/-! ## Member after member -/

/--
What of a draft shows in the schema that is read: of the members that are no keywords the extensions
only, each found by its name.
-/
structure Gist where
  schema : Schema
  seen : String → Bool
  extension : String → Option Value

def Draft.gist (d : Draft) : Gist where
  schema := d.schema
  seen := d.seen.contains
  extension name := if Text.begins "x-" name then d.others.lookup name else none

/-- Takes what was read of a keyword. -/
def Gist.set (name : String) (f : Schema → Schema) (g : Gist) : Gist :=
  { g with schema := f g.schema, seen := Function.update g.seen name true }

/-- Takes a member that is no keyword. -/
def Gist.put (name : String) (v : Value) (g : Gist) : Gist :=
  if Text.begins "x-" name then { g with extension := Function.update g.extension name (some v) }
  else g

/-- Whether a member of this name is a keyword that was read already. -/
def Gist.blocks (g : Gist) (name : String) : Bool := isKeyword name && g.seen name

/-- What a member does, if it can be read. -/
def effect? (how : Reading) (name : String) (v : Value) : Option (Gist → Gist) :=
  if isKeyword name then (decodeKeyword how name (Node.ofValue v)).toOption.map (Gist.set name)
  else ((Node.ofValue v).value .forms).toOption.map (Gist.put name)

/-- Takes the next member, if all before it could be taken. -/
def takeMember (how : Reading) (g : Option Gist) (member : String × Value) : Option Gist :=
  g.bind fun g =>
    if g.blocks member.1 then none
    else (effect? how member.1 member.2).map fun effect => effect g

theorem gist_set (d : Draft) (name : String) (f : Schema → Schema) :
    (d.set name f).gist = d.gist.set name f := by
  have hseen : (name :: d.seen).contains = Function.update d.seen.contains name true := by
    funext n
    by_cases hn : n = name
    · simp [hn]
    · simp [hn]
  exact congrArg (Gist.mk (f d.schema) · _) hseen

theorem gist_put (d : Draft) (name : String) (v : Value) :
    Draft.gist { d with others := Assoc.putSorted d.others name v } = d.gist.put name v := by
  unfold Draft.gist Gist.put
  by_cases hx : Text.begins "x-" name = true
  · rw [if_pos hx]
    refine congrArg (Gist.mk _ _) (funext fun n => ?_)
    by_cases hn : n = name
    · rw [hn, if_pos hx, Function.update_self, Assoc.lookup_putSorted, if_pos rfl]
    · rw [Function.update_of_ne hn, Assoc.lookup_putSorted, if_neg hn]
  · rw [if_neg hx]
    refine congrArg (Gist.mk _ _) (funext fun n => ?_)
    by_cases hn : n = name
    · rw [hn, if_neg hx, if_neg hx]
    · rw [Assoc.lookup_putSorted, if_neg hn]

theorem foldl_takeMember_none (how : Reading) (members : List (String × Value)) :
    members.foldl (takeMember how) none = none := by
  induction members with
  | nil => rfl
  | cons m rest ih => exact ih

theorem decodeMembers_cons (how : Reading) (d : Draft) (name : String) (v : Value)
    (rest : List (String × Value)) :
    decodeMembers how d (Node.ofFields ((name, v) :: rest)) =
      if isKeyword name then
        if d.seen.contains name then .error (.here (.duplicateField name))
        else within (.key name) (decodeKeyword how name (Node.ofValue v)) >>= fun f =>
          decodeMembers how (d.set name f) (Node.ofFields rest)
      else (Node.ofValue v).value .forms >>= fun v =>
        decodeMembers how { d with others := Assoc.putSorted d.others name v }
          (Node.ofFields rest) := by
  rw [Node.ofFields, decodeMembers, Node.string_key]
  rfl

/-- Reading members is taking them one after the other. -/
theorem decodeMembers_toOption (how : Reading) (members : List (String × Value)) (d : Draft) :
    (decodeMembers how d (Node.ofFields members)).toOption.map Draft.gist =
      members.foldl (takeMember how) (some d.gist) := by
  induction members generalizing d with
  | nil => rfl
  | cons m rest ih =>
    obtain ⟨name, v⟩ := m
    rw [decodeMembers_cons, List.foldl_cons, takeMember, Option.bind_some, effect?, Gist.blocks]
    by_cases hname : isKeyword name = true
    · rw [if_pos hname, if_pos hname, hname, Bool.true_and]
      -- a keyword that was seen before stops the reading
      by_cases hseen : d.seen.contains name = true
      · rw [if_pos hseen, if_pos (show d.gist.seen name = true from hseen), foldl_takeMember_none]
        rfl
      · rw [if_neg hseen, if_neg (show ¬ d.gist.seen name = true from hseen),
          ← toOption_within (.key name) (decodeKeyword _ _ _)]
        cases within (.key name) (decodeKeyword how name (Node.ofValue v)) with
        | error e => exact (foldl_takeMember_none how rest).symm
        | ok f => exact (ih (d.set name f)).trans (by rw [gist_set]; rfl)
    · rw [if_neg hname, if_neg hname, if_neg fun h => hname (Bool.and_eq_true_iff.mp h).1]
      cases (Node.ofValue v).value .forms with
      | error e => exact (foldl_takeMember_none how rest).symm
      | ok w => exact (ih _).trans (by rw [gist_put]; rfl)

theorem sorted_decodeMembers {d d' : Draft}
    (h : decodeMembers how d (Node.ofFields members) = .ok d') (hd : Assoc.Sorted d.others) :
    Assoc.Sorted d'.others := by
  induction members generalizing d with
  | nil => exact Except.ok.inj h ▸ hd
  | cons m rest ih =>
    obtain ⟨name, v⟩ := m
    rw [decodeMembers_cons] at h
    split at h
    · split at h
      · nomatch h
      · obtain ⟨f, -, h⟩ := bind_eq_ok.mp h
        exact ih h hd
    · obtain ⟨w, -, h⟩ := bind_eq_ok.mp h
      exact ih h hd.putSorted

/-- How a draft ends is told by its gist. -/
theorem finish_congr {d d' : Draft} (hd : Assoc.Sorted d.others) (hd' : Assoc.Sorted d'.others)
    (h : d.gist = d'.gist) (closed : Bool) : d.finish closed = d'.finish closed := by
  have hschema : d.schema = d'.schema := congrArg Gist.schema h
  have hextensions : ∀ q : String × Value → Bool, (q = fun e => Text.begins "x-" e.1) →
      d.others.filter q = d'.others.filter q := by
    intro q hq
    subst hq
    refine Assoc.eq_of_lookup (hd.filter _) (hd'.filter _) fun name => ?_
    rw [Assoc.lookup_filter, Assoc.lookup_filter]
    exact congrFun (congrArg Gist.extension h) name
  unfold Draft.finish
  rw [hschema, hextensions]
  rfl

theorem read_congr
    (h : members.foldl (takeMember how) (some (Draft.gist {})) =
      members'.foldl (takeMember how) (some (Draft.gist {}))) :
    read? how (.obj members) = read? how (.obj members') := by
  rw [← decodeMembers_toOption, ← decodeMembers_toOption] at h
  rw [read?, read?, Node.ofValue, Node.ofValue, decode_obj, decode_obj, toOption_bind,
    toOption_bind]
  cases hread : (decodeMembers how {} (Node.ofFields members)).toOption with
  | none =>
    rw [hread] at h
    rw [Option.map_eq_none_iff.mp h.symm]
  | some d =>
    rw [hread] at h
    obtain ⟨d', hread', hgist⟩ := Option.map_eq_some_iff.mp h.symm
    have hd := sorted_decodeMembers (eq_ok_of_toOption hread) Assoc.sorted_nil
    have hd' := sorted_decodeMembers (eq_ok_of_toOption hread') Assoc.sorted_nil
    rw [hread']
    exact congrArg Except.toOption (finish_congr hd hd' hgist.symm true)

/-! ## Members change places -/

theorem Gist.set_set {h : Schema → Schema} (hne : name ≠ n) (hf : SetsOnly name f)
    (hh : SetsOnly n h) (g : Gist) : (g.set n h).set name f = (g.set name f).set n h := by
  show Gist.mk (f (h g.schema)) (Function.update (Function.update g.seen n true) name true) _ =
    Gist.mk (h (f g.schema)) _ _
  rw [hf.comm hne hh, Function.update_comm hne.symm]
  rfl

theorem Gist.set_put (name n : String) (f : Schema → Schema) (v : Value) (g : Gist) :
    (g.put n v).set name f = (g.set name f).put n v := by
  unfold put
  split <;> rfl

theorem Gist.put_put (hne : name ≠ n) (v w : Value) (g : Gist) :
    (g.put n w).put name v = (g.put name v).put n w := by
  unfold put
  split
  · split
    · exact congrArg (Gist.mk _ _) (Function.update_comm hne.symm _ _ _)
    · rfl
  · rfl

variable {e e' : Gist → Gist} {g : Gist} {x y : String × Value}

theorem effect_cases (h : effect? how name v = some e) :
    (∃ f, SetsOnly name f ∧ e = Gist.set name f) ∨ ∃ w, e = Gist.put name w := by
  unfold effect? at h
  split at h
  next hname =>
    obtain ⟨f, hf, rfl⟩ := Option.map_eq_some_iff.mp h
    exact Or.inl ⟨f, setsOnly_decodeKeyword hname hf, rfl⟩
  next =>
    obtain ⟨w, -, rfl⟩ := Option.map_eq_some_iff.mp h
    exact Or.inr ⟨w, rfl⟩

theorem effect_comm (hne : name ≠ n) (he : effect? how name v = some e)
    (he' : effect? how n w = some e') (g : Gist) : e (e' g) = e' (e g) := by
  rcases effect_cases he with ⟨f, hf, rfl⟩ | ⟨v', rfl⟩
  · rcases effect_cases he' with ⟨h, hh, rfl⟩ | ⟨w', rfl⟩
    · exact Gist.set_set hne hf hh g
    · exact Gist.set_put name n f w' g
  · rcases effect_cases he' with ⟨h, hh, rfl⟩ | ⟨w', rfl⟩
    · exact (Gist.set_put n name h v' g).symm
    · exact Gist.put_put hne v' w' g

/-- A member that is taken does not block one of another name. -/
theorem blocks_effect (he : effect? how name v = some e) (hne : n ≠ name) (g : Gist) :
    (e g).blocks n = g.blocks n := by
  have hseen : (e g).seen n = g.seen n := by
    rcases effect_cases he with ⟨f, -, rfl⟩ | ⟨w, rfl⟩
    · exact Function.update_of_ne hne _ _
    · show (Gist.put name w g).seen n = g.seen n
      unfold Gist.put
      split <;> rfl
  rw [Gist.blocks, hseen, Gist.blocks]

theorem takeMember_none : takeMember how none x = none := rfl

theorem takeMember_unread (h : effect? how x.1 x.2 = none) (g : Option Gist) :
    takeMember how g x = none := by
  cases g with
  | none => rfl
  | some g => rw [takeMember, Option.bind_some, h, Option.map_none, ite_self]

theorem takeMember_blocked (h : g.blocks x.1 = true) : takeMember how (some g) x = none := by
  rw [takeMember, Option.bind_some, if_pos h]

theorem takeMember_some (h : ¬ g.blocks x.1 = true) (he : effect? how x.1 x.2 = some e) :
    takeMember how (some g) x = some (e g) := by
  rw [takeMember, Option.bind_some, if_neg h, he, Option.map_some]

/-- **Members with different names can change places.** -/
theorem takeMember_comm (hne : x.1 ≠ y.1) (g : Option Gist) :
    takeMember how (takeMember how g x) y = takeMember how (takeMember how g y) x := by
  cases hx : effect? how x.1 x.2 with
  | none => rw [takeMember_unread hx, takeMember_unread hx, takeMember_none]
  | some e =>
    cases hy : effect? how y.1 y.2 with
    | none => rw [takeMember_unread hy, takeMember_unread hy, takeMember_none]
    | some e' =>
      cases g with
      | none => rfl
      | some g =>
        -- what one member sets does not change whether the other one is blocked
        have hx' := blocks_effect hy hne g
        have hy' := blocks_effect hx hne.symm g
        by_cases hbx : g.blocks x.1 = true
        · rw [takeMember_blocked hbx, takeMember_none]
          by_cases hby : g.blocks y.1 = true
          · rw [takeMember_blocked hby, takeMember_none]
          · rw [takeMember_some hby hy, takeMember_blocked (hx'.trans hbx)]
        · rw [takeMember_some hbx hx]
          by_cases hby : g.blocks y.1 = true
          · rw [takeMember_blocked hby, takeMember_none, takeMember_blocked (hy'.trans hby)]
          · rw [takeMember_some hby hy, takeMember_some (hy' ▸ hby) hy,
              takeMember_some (hx' ▸ hbx) hx, effect_comm hne hx hy]

theorem foldl_takeMember_perm (hperm : members.Perm members')
    (hnodup : (Assoc.keys members).Nodup) (g : Option Gist) :
    members.foldl (takeMember how) g = members'.foldl (takeMember how) g := by
  refine hperm.foldl_eq' (fun x hx y hy g => ?_) g
  by_cases heq : x = y
  · rw [heq]
  · exact takeMember_comm (fun hkey => heq (List.inj_on_of_nodup_map hnodup hx hy hkey)) g

/-! ## The same said in another way -/

/-- A member that is no keyword and no extension is taken without effect. -/
theorem takeMember_ignored (hname : isKeyword name = false) (hx : Text.begins "x-" name = false)
    (g : Option Gist) : takeMember how g (name, v) = g := by
  cases g with
  | none => rfl
  | some g =>
    obtain ⟨w, hw⟩ := Node.value_ofValue .forms v
    rw [takeMember, Option.bind_some, Gist.blocks, effect?, hname, hw]
    show some (g.put name w) = some g
    rw [Gist.put, hx]
    rfl

theorem takeMember_congr (hname : isKeyword name = true)
    (h : (decodeKeyword how name (Node.ofValue v)).toOption =
      (decodeKeyword how name (Node.ofValue w)).toOption) (g : Option Gist) :
    takeMember how g (name, v) = takeMember how g (name, w) := by
  unfold takeMember effect?
  rw [if_pos hname, if_pos hname, h]

/-- The places in a member where a schema stands. -/
inductive Holder : (Value → String × Value) → Prop
  | property (first last : List (String × Value)) (name : String) :
      Holder fun v => ("properties", .obj (first ++ (name, v) :: last))
  | branch (first last : List Value) : Holder fun v => ("allOf", .arr (first ++ v :: last))
  | item : Holder fun v => ("items", v)
  | tupleItem (first last : List Value) : Holder fun v => ("items", .arr (first ++ v :: last))
  | moreProperties : Holder fun v => ("additionalProperties", v)
  | moreItems : Holder fun v => ("additionalItems", v)

/--
Members of a schema that say the same. Members with different names may stand in any order, and
members that are neither keywords nor extensions may come and go, in the schema itself and in each
that stands in it.
-/
inductive Restated : List (String × Value) → List (String × Value) → Prop
  | refl (members : List (String × Value)) : Restated members members
  | symm {a b : List (String × Value)} (h : Restated a b) : Restated b a
  | trans {a b c : List (String × Value)} (h : Restated a b) (h' : Restated b c) : Restated a c
  | reorder {a b : List (String × Value)} (hnodup : (Assoc.keys a).Nodup) (hperm : a.Perm b) :
      Restated a b
  | ignore (before after : List (String × Value)) {name : String} (v : Value)
      (hname : isKeyword name = false) (hx : Text.begins "x-" name = false) :
      Restated (before ++ (name, v) :: after) (before ++ after)
  | within (before after : List (String × Value)) {holder : Value → String × Value}
      {a b : List (String × Value)} (hholder : Holder holder) (h : Restated a b) :
      Restated (before ++ holder (.obj a) :: after) (before ++ holder (.obj b) :: after)

theorem mapM_congr {first last : List Value} (h : read? how v = read? how w) :
    (first ++ v :: last).mapM (read? how) = (first ++ w :: last).mapM (read? how) := by
  rw [List.mapM_append, List.mapM_append, List.mapM_cons, List.mapM_cons, h]

theorem takeMember_holder {holder : Value → String × Value} {a b : List (String × Value)}
    (hholder : Holder holder) (h : ∀ how, read? how (.obj a) = read? how (.obj b)) (how : Reading)
    (g : Option Gist) :
    takeMember how g (holder (.obj a)) = takeMember how g (holder (.obj b)) := by
  -- each keyword that holds a schema reads it with `read?`, which the two texts share
  cases hholder with
  | property first last name =>
    refine takeMember_congr rfl ?_ g
    rw [decodeKeyword_properties, decodeKeyword_properties, properties?, properties?,
      List.foldlM_append, List.foldlM_append]
    simp only [List.foldlM_cons, h how]
  | branch first last =>
    refine takeMember_congr rfl ?_ g
    rw [decodeKeyword_allOf, decodeKeyword_allOf, branches?, branches?, mapM_congr (h how)]
  | item =>
    refine takeMember_congr rfl ?_ g
    rw [decodeKeyword_items, decodeKeyword_items, items?, items?, h]
  | tupleItem first last =>
    refine takeMember_congr rfl ?_ g
    rw [decodeKeyword_items, decodeKeyword_items, items?, items?, mapM_congr (h .forms)]
  | moreProperties =>
    refine takeMember_congr rfl ?_ g
    rw [decodeKeyword_extra (.inl rfl), decodeKeyword_extra (.inl rfl), extra?, extra?, h]
  | moreItems =>
    refine takeMember_congr rfl ?_ g
    rw [decodeKeyword_extra (.inr rfl), decodeKeyword_extra (.inr rfl), extra?, extra?, h]

theorem read_restated (h : Restated members members') :
    ∀ how, read? how (.obj members) = read? how (.obj members') := by
  induction h with
  | refl members => exact fun _ => rfl
  | symm _ ih => exact fun how => (ih how).symm
  | trans _ _ ih ih' => exact fun how => (ih how).trans (ih' how)
  | reorder hnodup hperm =>
    intro how
    exact read_congr (foldl_takeMember_perm hperm hnodup _)
  | ignore before after v hname hx =>
    intro how
    refine read_congr ?_
    rw [List.foldl_append, List.foldl_cons, takeMember_ignored hname hx, List.foldl_append]
  | within before after hholder _ ih =>
    intro how
    refine read_congr ?_
    rw [List.foldl_append, List.foldl_cons, takeMember_holder hholder ih, List.foldl_append,
      List.foldl_cons]

/--
**Schemas that say the same are read alike**: either both are read, as the same schema, or neither
is. It does not matter in which order members stand, nor which members there are that are neither
keywords nor extensions, in the schema itself and in each schema that stands in it.
-/
theorem decode_restated (h : Restated members members') (how : Reading) (s : Schema) :
    decode how (Node.ofValue (.obj members)) = .ok s ↔
      decode how (Node.ofValue (.obj members')) = .ok s := by
  rw [← toOption_eq_some, ← toOption_eq_some]
  exact Eq.congr_left (read_restated h how)

/-- A shelf with notes beside what is read. -/
def shelf : List (String × Value) :=
  [("note", .str "one per room"), ("type", .str "object"),
   ("properties", .obj
     [("width", .obj [("unit", .str "cm"), ("minimum", .num (.int 1)), ("type", .str "integer")])]),
   ("x-kcl-name", .str "Shelf"), ("additionalProperties", .bool false)]

/-- The shelf without the notes, its members in another order. -/
def tidyShelf : List (String × Value) :=
  [("type", .str "object"), ("x-kcl-name", .str "Shelf"), ("additionalProperties", .bool false),
   ("properties", .obj [("width", .obj [("type", .str "integer"), ("minimum", .num (.int 1))])])]

theorem restated_shelf : Restated shelf tidyShelf := by
  have hnote : Restated shelf (shelf.drop 1) :=
    .ignore [] (shelf.drop 1) (.str "one per room") (by decide) (by decide)
  have hwidth : Restated
      [("unit", .str "cm"), ("minimum", .num (.int 1)), ("type", .str "integer")]
      [("type", .str "integer"), ("minimum", .num (.int 1))] :=
    .trans (.ignore [] _ (.str "cm") (by decide) (by decide)) (.reorder (by decide) (.swap _ _ []))
  have hproperties := Restated.within [("type", .str "object")] (shelf.drop 3)
    (Holder.property [] [] "width") hwidth
  refine hnote.trans (hproperties.trans (.reorder (by decide) ?_))
  exact .cons _ (List.perm_append_singleton _ _).symm

/-- The shelf is read with and without the notes, as the same schema. -/
theorem shelf_restated : Restated shelf tidyShelf ∧
    ∃ s, ofValue (.obj shelf) = .ok s ∧ ofValue (.obj tidyShelf) = .ok s := by
  have hread : ∃ s, ofValue (.obj shelf) = .ok s := ⟨_, rfl⟩
  obtain ⟨s, hs⟩ := hread
  exact ⟨restated_shelf, s, hs, (decode_restated restated_shelf .value s).mp hs⟩

end KclModels.Schema
