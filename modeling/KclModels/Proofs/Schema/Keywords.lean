import KclModels.Schema.Decode

/-!
# What keywords say

What a keyword sets in a schema depends on its value alone, and it sets only the part that it stands
for, so keywords with different names may be read in either order. Of the keywords that hold schemas
the value is told by what these schemas are read as. Faults are left out, since which of several is
found first does depend on the order.
-/

namespace KclModels

/-! ## Readings without their faults -/

variable {ε α β : Type}

theorem toOption_bind (m : Except ε α) (k : α → Except ε β) :
    (m >>= k).toOption = m.toOption.bind fun a => (k a).toOption := by
  cases m <;> rfl

/-- What is read first and not used does not matter if it can be read. -/
theorem toOption_after {m : Except ε α} (h : ∃ a, m = .ok a) (r : Except ε β) :
    (m >>= fun _ => r).toOption = r.toOption := by
  obtain ⟨a, rfl⟩ := h
  rfl

theorem toOption_within (step : Step) (r : Except Fault α) :
    (within step r).toOption = r.toOption := by
  cases r <;> rfl

theorem toOption_eq_some {m : Except ε α} {a : α} : m.toOption = some a ↔ m = .ok a :=
  ⟨eq_ok_of_toOption, congrArg Except.toOption⟩

namespace Node

theorem string_key (how : Reading) (name : String) :
    (scalar (.str name)).string how = .ok name := by
  cases how <;> rfl

theorem valueItems_ofItems {how : Reading} {items : List Value}
    (h : ∀ v ∈ items, ∃ w, (ofValue v).value how = .ok w) :
    ∃ values, valueItems how (ofItems items) = .ok values := by
  induction items with
  | nil => exact ⟨[], rfl⟩
  | cons v rest ih =>
    obtain ⟨w, hw⟩ := h v List.mem_cons_self
    obtain ⟨values, hvalues⟩ := ih fun v hv => h v (List.mem_cons_of_mem _ hv)
    exact ⟨w :: values, by rw [ofItems, valueItems, hw, hvalues]; rfl⟩

theorem valueFields_ofFields {how : Reading} {fields : List (String × Value)}
    (h : ∀ f ∈ fields, ∃ w, (ofValue f.2).value how = .ok w) :
    ∃ values, valueFields how (ofFields fields) = .ok values := by
  induction fields with
  | nil => exact ⟨[], rfl⟩
  | cons f rest ih =>
    obtain ⟨name, v⟩ := f
    obtain ⟨w, hw⟩ := h (name, v) List.mem_cons_self
    obtain ⟨values, hvalues⟩ := ih fun v hv => h v (List.mem_cons_of_mem _ hv)
    exact ⟨(name, w) :: values, by rw [ofFields, valueFields, string_key, hw, hvalues]; rfl⟩

/-- The node of a value can be read as a value. -/
theorem value_ofValue (how : Reading) (v : Value) : ∃ w, (ofValue v).value how = .ok w := by
  induction v using Value.induct with
  | null => exact ⟨_, rfl⟩
  | bool b => exact ⟨_, rfl⟩
  | num n =>
    cases n with
    | int n => exact ⟨_, rfl⟩
    | float x =>
      -- a number that is none has no form of its own, and is read as null
      exact ⟨if x.isFinite then .num (.float x) else .null, rfl⟩
  | str s => exact ⟨_, rfl⟩
  | arr items ih =>
    obtain ⟨values, hvalues⟩ := valueItems_ofItems ih
    exact ⟨.arr values, by rw [ofValue, value, hvalues]; rfl⟩
  | obj fields ih =>
    obtain ⟨values, hvalues⟩ := valueFields_ofFields ih
    exact ⟨.obj (Assoc.ofPairs values), by rw [ofValue, value, hvalues]; rfl⟩

end Node

namespace Schema

variable {how : Reading} {name a b : String} {v : Value} {f : Schema → Schema}

/-! ## Keywords that hold schemas -/

/-- The schema that a value is read as, if it describes one. -/
def read? (how : Reading) (v : Value) : Option Schema := (decode how (Node.ofValue v)).toOption

/-- The schemas of the branches of a composition. -/
def branches? (how : Reading) : Value → Option (List Schema)
  | .arr items => items.mapM (read? how)
  | _ => none

/-- The schemas of properties, in the order of their names. -/
def properties? (how : Reading) : Value → Option (List (String × Schema))
  | .obj fields => fields.foldlM (fun acc f => (read? how f.2).map (Assoc.put acc f.1)) []
  | _ => none

/-- The schema of all items, or those of the places. -/
def items? : Value → Option (Option (Items Schema))
  | .null => some none
  | .arr items => (items.mapM (read? .forms)).map fun schemas => some (.tuple schemas)
  | .obj fields => (read? .forms (.obj fields)).map fun schema => some (.single schema)
  | _ => none

/-- What is allowed beyond the declared parts. -/
def extra? : Value → Option (Option (Extra Schema))
  | .null => some none
  | .bool allowed => some (some (.flag allowed))
  | .obj fields => (read? .forms (.obj fields)).map fun schema => some (.schema schema)
  | _ => none

theorem decodeList_toOption (how : Reading) (items : List Value) :
    ∀ i, (decodeList how i (Node.ofItems items)).toOption = items.mapM (read? how) := by
  induction items with
  | nil => exact fun _ => rfl
  | cons v rest ih =>
    intro i
    rw [Node.ofItems, decodeList, toOption_bind, toOption_within, List.mapM_cons]
    refine congrArg (Option.bind (read? how v)) (funext fun schema => ?_)
    rw [toOption_bind, ih]
    rfl

theorem decodeProperties_toOption (how : Reading) (fields : List (String × Value)) :
    ∀ acc, (decodeProperties how acc (Node.ofFields fields)).toOption =
      fields.foldlM (fun acc f => (read? how f.2).map (Assoc.put acc f.1)) acc := by
  induction fields with
  | nil => exact fun _ => rfl
  | cons f rest ih =>
    intro acc
    obtain ⟨name, v⟩ := f
    rw [Node.ofFields, decodeProperties, Node.string_key, List.foldlM_cons]
    show ((within _ (decode how (Node.ofValue v)) >>= fun schema => _)).toOption = _
    rw [toOption_bind, toOption_within]
    simp only [ih]
    unfold read?
    cases (decode how (Node.ofValue v)).toOption <;> rfl

theorem decode_obj (how : Reading) (members : List (Node × Node)) (closed : Bool) :
    decode how (.obj members closed) =
      decodeMembers how {} members >>= (Draft.finish · closed) := by
  rw [decode]

theorem decodeKeyword_properties (how : Reading) (v : Value) :
    (decodeKeyword how "properties" (Node.ofValue v)).toOption =
      (properties? how v).map fun properties s => { s with properties } := by
  cases v with
  | obj fields =>
    show (decodeProperties how [] (Node.ofFields fields) >>= fun properties => _).toOption = _
    rw [toOption_bind, decodeProperties_toOption, properties?]
    exact (Option.map_eq_bind).symm
  | null => rfl
  | bool b => rfl
  | num n => rfl
  | str s => rfl
  | arr items => rfl

theorem decodeKeyword_allOf (how : Reading) (v : Value) :
    (decodeKeyword how "allOf" (Node.ofValue v)).toOption =
      (branches? how v).map fun allOf s => { s with allOf } := by
  cases v with
  | arr items =>
    show (decodeList how 0 (Node.ofItems items) >>= fun schemas => _).toOption = _
    rw [toOption_bind, decodeList_toOption, branches?]
    exact (Option.map_eq_bind).symm
  | null => rfl
  | bool b => rfl
  | num n => rfl
  | str s => rfl
  | obj fields => rfl

theorem decodeKeyword_items (how : Reading) (v : Value) :
    (decodeKeyword how "items" (Node.ofValue v)).toOption =
      (items? v).map fun items s => { s with items } := by
  cases v with
  | arr items =>
    rw [items?, ← decodeList_toOption .forms items 0]
    refine (toOption_after (Node.value_ofValue .forms (.arr items)) _).trans ?_
    cases decodeList .forms 0 (Node.ofItems items) <;> rfl
  | obj fields =>
    rw [items?, read?, Node.ofValue, decode_obj]
    refine (toOption_after (Node.value_ofValue .forms (.obj fields)) _).trans ?_
    cases decodeMembers .forms {} (Node.ofFields fields) >>= (Draft.finish · true) <;> rfl
  | null => cases how <;> rfl
  | bool b => cases how <;> rfl
  | num n => cases n <;> cases how <;> rfl
  | str s => cases how <;> rfl

/-- Sets what is allowed beyond the properties, or beyond the places of a tuple. -/
def setExtra (name : String) (extra : Option (Extra Schema)) (s : Schema) : Schema :=
  if name = "additionalProperties" then { s with additionalProperties := extra }
  else { s with additionalItems := extra }

theorem decodeKeyword_scalar (hname : name = "additionalProperties" ∨ name = "additionalItems")
    (how : Reading) (x : Scalar) :
    decodeKeyword how name (.scalar x) =
      ((Node.scalar x).option how (Node.value .forms)).bind fun
        | none => .ok (setExtra name none)
        | some (.bool allowed) => .ok (setExtra name (some (.flag allowed)))
        | some _ => .error (.here (.noForm "SchemaOrBool")) := by
  rcases hname with rfl | rfl <;> rfl

theorem decodeKeyword_extra (hname : name = "additionalProperties" ∨ name = "additionalItems")
    (how : Reading) (v : Value) :
    (decodeKeyword how name (Node.ofValue v)).toOption = (extra? v).map (setExtra name) := by
  cases v with
  | arr items =>
    have hvalue := Node.value_ofValue .forms (.arr items)
    rcases hname with rfl | rfl <;> exact toOption_after hvalue _
  | obj fields =>
    have hvalue := Node.value_ofValue .forms (.obj fields)
    rw [extra?, read?, Node.ofValue, decode_obj]
    rcases hname with rfl | rfl
    · refine (toOption_after hvalue _).trans ?_
      cases decodeMembers .forms {} (Node.ofFields fields) >>= (Draft.finish · true) <;> rfl
    · refine (toOption_after hvalue _).trans ?_
      cases decodeMembers .forms {} (Node.ofFields fields) >>= (Draft.finish · true) <;> rfl
  | null =>
    rw [Node.ofValue, decodeKeyword_scalar hname]
    cases how <;> rfl
  | bool b =>
    rw [Node.ofValue, decodeKeyword_scalar hname]
    cases how <;> rfl
  | num n =>
    rw [Node.ofValue, decodeKeyword_scalar hname]
    cases n with
    | int i => cases how <;> rfl
    | float x =>
      -- a number that is none is read as null, which is no truth value either
      have hread : (Node.scalar (.num (.float x))).option how (Node.value .forms) =
          .ok (some (if x.isFinite then .num (.float x) else .null)) := by
        cases how <;> rfl
      rw [hread]
      cases x.isFinite <;> rfl
  | str s =>
    rw [Node.ofValue, decodeKeyword_scalar hname]
    cases how <;> rfl

/-! ## What a keyword sets -/

/-- The schema `s`, but the part that the keyword of this name stands for is that of `t`. -/
def withKeyword (name : String) (t s : Schema) : Schema where
  reference := if name = "$ref" then t.reference else s.reference
  types := if name = "type" then t.types else s.types
  format := if name = "format" then t.format else s.format
  title := if name = "title" then t.title else s.title
  description := if name = "description" then t.description else s.description
  defaultValue := if name = "default" then t.defaultValue else s.defaultValue
  exampleValue := if name = "example" then t.exampleValue else s.exampleValue
  discriminator := if name = "discriminator" then t.discriminator else s.discriminator
  readOnly := if name = "readOnly" then t.readOnly else s.readOnly
  required := if name = "required" then t.required else s.required
  maximum := if name = "maximum" then t.maximum else s.maximum
  exclusiveMaximum := if name = "exclusiveMaximum" then t.exclusiveMaximum else s.exclusiveMaximum
  minimum := if name = "minimum" then t.minimum else s.minimum
  exclusiveMinimum := if name = "exclusiveMinimum" then t.exclusiveMinimum else s.exclusiveMinimum
  multipleOf := if name = "multipleOf" then t.multipleOf else s.multipleOf
  maxLength := if name = "maxLength" then t.maxLength else s.maxLength
  minLength := if name = "minLength" then t.minLength else s.minLength
  pattern := if name = "pattern" then t.pattern else s.pattern
  maxItems := if name = "maxItems" then t.maxItems else s.maxItems
  minItems := if name = "minItems" then t.minItems else s.minItems
  uniqueItems := if name = "uniqueItems" then t.uniqueItems else s.uniqueItems
  enumValues := if name = "enum" then t.enumValues else s.enumValues
  extensions := s.extensions
  hints := s.hints
  properties := if name = "properties" then t.properties else s.properties
  allOf := if name = "allOf" then t.allOf else s.allOf
  items := if name = "items" then t.items else s.items
  additionalProperties :=
    if name = "additionalProperties" then t.additionalProperties else s.additionalProperties
  additionalItems := if name = "additionalItems" then t.additionalItems else s.additionalItems

theorem ite_comm_of_ne {k : String} {α : Type} (h : a ≠ b) (x y z : α) :
    (if a = k then x else if b = k then y else z) =
      if b = k then y else if a = k then x else z := by
  by_cases ha : a = k
  · rw [if_pos ha, if_pos ha, if_neg fun hb => h (ha.trans hb.symm)]
  · rw [if_neg ha, if_neg ha]

theorem withKeyword_comm (h : a ≠ b) (t u s : Schema) :
    withKeyword a t (withKeyword b u s) = withKeyword b u (withKeyword a t s) := by
  unfold withKeyword
  congr 1
  · congr 1 <;> exact ite_comm_of_ne h _ _ _
  all_goals exact ite_comm_of_ne h _ _ _

/-- What a keyword of this name sets: its own part, whatever the rest of the schema is. -/
def SetsOnly (name : String) (f : Schema → Schema) : Prop := ∀ s, f s = withKeyword name (f {}) s

theorem SetsOnly.comm {g : Schema → Schema} (h : a ≠ b) (hf : SetsOnly a f) (hg : SetsOnly b g)
    (s : Schema) : f (g s) = g (f s) := by
  rw [hf (g s), hg s, hg (f s), hf s, withKeyword_comm h]

theorem setsOnly_plainKeyword {n : Node} (h : plainKeyword how name n = some (.ok f)) :
    SetsOnly name f := by
  unfold plainKeyword at h
  split at h
  -- no other name is a keyword
  case h_23 => nomatch h
  all_goals
    obtain ⟨v, -, rfl⟩ := map_eq_ok.mp (Option.some.inj h)
    exact fun _ => rfl

/-- Whether a name is a keyword depends on nothing else. -/
theorem isSome_plainKeyword (how : Reading) (name : String) (n : Node) :
    (plainKeyword how name n).isSome = (plainKeyword .value name .broken).isSome := by
  unfold plainKeyword
  split <;> rfl

theorem decodeKeyword_plain {n : Node} {read : Except Fault (Schema → Schema)}
    (h : plainKeyword how name n = some read) : decodeKeyword how name n = read := by
  unfold decodeKeyword
  split <;> rw [h]

/-- **A keyword sets only its own part.** -/
theorem setsOnly_decodeKeyword (hname : isKeyword name = true)
    (h : (decodeKeyword how name (Node.ofValue v)).toOption = some f) : SetsOnly name f := by
  by_cases hnest : name ∈ nestingKeywords
  · simp only [nestingKeywords, List.mem_cons, List.not_mem_nil, or_false] at hnest
    rcases hnest with rfl | rfl | rfl | hextra
    · rw [decodeKeyword_properties] at h
      obtain ⟨properties, -, rfl⟩ := Option.map_eq_some_iff.mp h
      exact fun _ => rfl
    · rw [decodeKeyword_allOf] at h
      obtain ⟨allOf, -, rfl⟩ := Option.map_eq_some_iff.mp h
      exact fun _ => rfl
    · rw [decodeKeyword_items] at h
      obtain ⟨items, -, rfl⟩ := Option.map_eq_some_iff.mp h
      exact fun _ => rfl
    · rw [decodeKeyword_extra hextra] at h
      obtain ⟨extra, -, rfl⟩ := Option.map_eq_some_iff.mp h
      rcases hextra with rfl | rfl
      · exact fun _ => rfl
      · exact fun _ => rfl
  · -- any other keyword holds no schemas and is in the table
    have hplain : (plainKeyword how name (Node.ofValue v)).isSome = true := by
      rw [isSome_plainKeyword]
      exact (Bool.or_eq_true_iff.mp hname).resolve_left fun h => hnest (List.contains_iff_mem.mp h)
    obtain ⟨read, hread⟩ := Option.isSome_iff_exists.mp hplain
    rw [decodeKeyword_plain hread] at h
    exact setsOnly_plainKeyword (hread.trans (congrArg some (eq_ok_of_toOption h)))

end Schema

end KclModels
