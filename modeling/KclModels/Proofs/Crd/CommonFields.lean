import KclModels.Crd
import KclModels.Proofs.Assoc.Sorted

/-!
# The fields that every resource has

The definition of a resource has the fields that every resource has, before those of its own, and
asks for two of them. They are put there whatever the resource says of fields with these names; all
else that it says stays, in its order. A definition that has the fields already is left as it is.
-/

namespace KclModels

/-- Setting the keys that a map lacks puts them at its end, in their order. -/
theorem Assoc.foldl_putNew {α : Type} {m l : List (String × α)} (hkeys : (keys l).Nodup) :
    l.foldl (fun m (k, v) => putNew m k v) m = m ++ l.filter (!has m ·.1) := by
  induction l generalizing m with
  | nil => rw [List.foldl_nil, List.filter_nil, List.append_nil]
  | cons e rest ih =>
    obtain ⟨k, v⟩ := e
    obtain ⟨hk, hrest⟩ := List.nodup_cons.mp hkeys
    rw [List.foldl_cons, ih hrest]
    dsimp only
    cases hm : has m k with
    | true =>
      have hput : putNew m k v = m := if_pos hm
      rw [hput, List.filter_cons_of_neg (by simp [hm])]
    | false =>
      have hput : putNew m k v = m ++ [(k, v)] := if_neg (by simp [hm])
      -- the later keys differ from this one, so adding it changes nothing for them
      have hother : ∀ e ∈ rest, has (m ++ [(k, v)]) e.1 = has m e.1 := by
        intro e he
        have hne : e.1 ≠ k := fun heq => hk (heq ▸ List.mem_map.mpr ⟨e, he, rfl⟩)
        rw [has, has, List.lookup_append, lookup_pair, if_neg hne, List.lookup_nil, Option.or_none]
      rw [hput, List.filter_cons_of_pos (by simp [hm]), List.append_assoc, List.singleton_append]
      exact congrArg (fun l => m ++ (k, v) :: l)
        (List.filter_congr fun e he => by rw [hother e he])

namespace Crd

variable {s : Schema} {group version kind : String}

/-! ## The fields -/

/-- The value that describes a string that is always the same. -/
def fixedValue (value text : String) : Value :=
  .obj [("type", .str "string"), ("readOnly", .bool true), ("default", .str value),
    ("description", .str text)]

theorem ofValue_fixedValue (value text : String) :
    Schema.ofValue (fixedValue value text) = .ok (fixedString value text) := rfl

/-- The names of the fields that every resource has. -/
def commonNames : List String := ["apiVersion", "kind", "metadata"]

theorem keys_commonProperties (group version kind : String) :
    Assoc.keys (commonProperties group version kind) = commonNames := rfl

theorem has_commonProperties (group version kind n : String) :
    Assoc.has (commonProperties group version kind) n = commonNames.contains n := by
  rw [Bool.eq_iff_iff, Assoc.has_iff_mem_keys, keys_commonProperties, List.contains_iff_mem]

/-- The other fields of the resource stand behind those that every resource has. -/
theorem withCommon_properties (hkeys : (Assoc.keys s.properties).Nodup) :
    (withCommon s group version kind).properties =
      commonProperties group version kind ++ s.properties.filter (!commonNames.contains ·.1) := by
  simp only [withCommon, Assoc.foldl_putNew hkeys, has_commonProperties]

theorem withCommon_keys (hkeys : (Assoc.keys s.properties).Nodup) :
    Assoc.keys (withCommon s group version kind).properties =
      commonNames ++ (Assoc.keys s.properties).filter (!commonNames.contains ·) := by
  rw [withCommon_properties hkeys, Assoc.keys, List.map_append, Assoc.keys, List.filter_map]
  rfl

theorem withCommon_nodup (hkeys : (Assoc.keys s.properties).Nodup) :
    (Assoc.keys (withCommon s group version kind).properties).Nodup := by
  have hnames : commonNames.Nodup := by decide
  rw [withCommon_keys hkeys]
  refine hnames.append (hkeys.filter _) fun n hn hother => ?_
  simp [hn] at hother

/-! ## What a resource asks for -/

/-- Names are added to a list in their order, each just if the list lacks it. -/
theorem withName_withName {names : List String} {a b : String} (hne : a ≠ b) :
    withName (withName names a) b = names ++ [a, b].filter (!names.contains ·) := by
  by_cases ha : a ∈ names <;> by_cases hb : b ∈ names <;> simp [withName, ha, hb, hne.symm]

theorem withCommon_required (s : Schema) (group version kind : String) :
    (withCommon s group version kind).required =
      s.required ++ ["apiVersion", "kind"].filter (!s.required.contains ·) :=
  withName_withName (by decide)

/-- Each of the two is asked for, and none of them is added where it was asked for. -/
theorem withCommon_counts (s : Schema) (group version kind : String) {n : String}
    (hn : n ∈ ["apiVersion", "kind"]) :
    (withCommon s group version kind).required.count n = max 1 (s.required.count n) := by
  have hnames : (["apiVersion", "kind"]).count n = 1 := by
    rw [List.mem_pair] at hn
    rcases hn with rfl | rfl <;> decide
  rw [withCommon_required, List.count_append]
  by_cases hmem : n ∈ s.required
  · have hpos := List.count_pos_iff.mpr hmem
    have hnot : n ∉ ["apiVersion", "kind"].filter (!s.required.contains ·) := by simp [hmem]
    rw [List.count_eq_zero.mpr hnot]
    omega
  · rw [List.count_filter (by simp [hmem]), hnames, List.count_eq_zero.mpr hmem]
    omega

/-! ## The definition of a resource -/

/-- All but the types, the fields and what is asked for stays. -/
theorem withCommon_frame (s : Schema) (group version kind : String) :
    { withCommon s group version kind with
      types := s.types, properties := s.properties, required := s.required } = s := by
  obtain ⟨keywords, properties, allOf, items, value, extraItems⟩ := s
  rfl

/-- A definition is left as it is if nothing is added to it. -/
theorem withCommon_eq_self (htypes : (withCommon s group version kind).types = s.types)
    (hproperties : (withCommon s group version kind).properties = s.properties)
    (hrequired : (withCommon s group version kind).required = s.required) :
    withCommon s group version kind = s := by
  refine Eq.trans ?_ (withCommon_frame s group version kind)
  rw [← htypes, ← hproperties, ← hrequired]
  generalize withCommon s group version kind = t
  obtain ⟨keywords, properties, allOf, items, value, extraItems⟩ := t
  rfl

/-- A definition that has the fields already is left as it is. -/
theorem withCommon_withCommon (hkeys : (Assoc.keys s.properties).Nodup) :
    withCommon (withCommon s group version kind) group version kind =
      withCommon s group version kind := by
  have hproperties : (withCommon (withCommon s group version kind) group version kind).properties =
      (withCommon s group version kind).properties := by
    rw [withCommon_properties (withCommon_nodup hkeys), withCommon_properties hkeys,
      List.filter_append, List.filter_filter]
    simp only [Bool.and_self]
    rfl
  have hrequired : (withCommon (withCommon s group version kind) group version kind).required =
      (withCommon s group version kind).required := by
    rw [withCommon_required, List.append_right_eq_self, List.filter_eq_nil_iff]
    intro n hn
    -- a field that is asked for is asked for again only if it was not
    have hcount := withCommon_counts s group version kind hn
    have hmem : n ∈ (withCommon s group version kind).required := List.count_pos_iff.mp (by omega)
    simp [hmem]
  have htypes : (withCommon (withCommon s group version kind) group version kind).types =
      (withCommon s group version kind).types := by
    refine if_neg ?_
    simp only [withCommon]
    split <;> simp_all
  exact withCommon_eq_self htypes hproperties hrequired

/--
**A resource gets the fields that every resource has, and keeps everything else.** Whatever it says of
fields with their names is replaced, its other fields follow in their order, and the two fields that
every resource asks for are added to those that it asks for.
-/
theorem withCommon_forces_and_keeps (group version kind : String)
    (hkeys : (Assoc.keys s.properties).Nodup) :
    (∃ apiVersion kindField,
      Schema.ofValue (fixedValue (group ++ "/" ++ version) apiVersionText) = .ok apiVersion ∧
      Schema.ofValue (fixedValue kind kindText) = .ok kindField ∧
      (withCommon s group version kind).properties =
        [("apiVersion", apiVersion), ("kind", kindField), ("metadata",
          { reference := some (Reference.toDefinition objectMetaName)
            description := some metadataText })] ++
        s.properties.filter fun e => e.1 ∉ ["apiVersion", "kind", "metadata"]) ∧
    (withCommon s group version kind).required =
      s.required ++ ["apiVersion", "kind"].filter (· ∉ s.required) ∧
    (∀ n ∈ ["apiVersion", "kind"],
      (withCommon s group version kind).required.count n = max 1 (s.required.count n)) ∧
    (withCommon s group version kind).types = (if s.types = [] then ["object"] else s.types) ∧
    { withCommon s group version kind with
      types := s.types, properties := s.properties, required := s.required } = s ∧
    withCommon (withCommon s group version kind) group version kind =
      withCommon s group version kind := by
  refine ⟨⟨_, _, ofValue_fixedValue _ _, ofValue_fixedValue _ _, ?_⟩, ?_,
    fun n hn => withCommon_counts s group version kind hn, ?_, withCommon_frame s group version kind,
    withCommon_withCommon hkeys⟩
  · rw [withCommon_properties hkeys]
    simp [commonNames, commonProperties]
  · simp [withCommon_required]
  · simp [withCommon]

/-- A resource that has fields of the common names itself, and asks for one of them. -/
def ticket : Schema where
  required := ["seat", "kind"]
  description := some "A ticket."
  properties := [("seat", .typed "string"), ("metadata", .typed "string"), ("row", .typed "integer"),
    ("kind", .typed "integer")]

theorem ticket_forced_and_kept :
    (Assoc.keys ticket.properties).Nodup ∧
    (∃ apiVersion kindField,
      Schema.ofValue (fixedValue "example.org/v1" apiVersionText) = .ok apiVersion ∧
      Schema.ofValue (fixedValue "Ticket" kindText) = .ok kindField ∧
      (withCommon ticket "example.org" "v1" "Ticket").properties =
        [("apiVersion", apiVersion), ("kind", kindField), ("metadata",
          { reference := some (Reference.toDefinition objectMetaName)
            description := some metadataText }),
          ("seat", .typed "string"), ("row", .typed "integer")]) ∧
    (withCommon ticket "example.org" "v1" "Ticket").required = ["seat", "kind", "apiVersion"] ∧
    (withCommon ticket "example.org" "v1" "Ticket").types = ["object"] ∧
    (withCommon ticket "example.org" "v1" "Ticket").description = some "A ticket." ∧
    withCommon (withCommon ticket "example.org" "v1" "Ticket") "example.org" "v1" "Ticket" =
      withCommon ticket "example.org" "v1" "Ticket" := by
  have hkeys : (Assoc.keys ticket.properties).Nodup := by decide
  obtain ⟨⟨a, k, ha, hk, hproperties⟩, hrequired, -, htypes, hframe, hagain⟩ :=
    withCommon_forces_and_keeps "example.org" "v1" "Ticket" hkeys
  exact ⟨hkeys, ⟨a, k, ha, hk, hproperties⟩, hrequired, htypes, rfl, hagain⟩

end Crd

end KclModels
