import Mathlib.Data.List.Forall2
import KclModels.Document.Decode
import KclModels.Proofs.Assoc.Sorted

/-!
# Sorted values

Sorting a value puts the keys of every object in it in order and leaves everything else: the order
of arrays, and the scalars. In a value no object has a key twice, so what is sorted has all of its
keys in one order, and two values are sorted alike just if they are equal but for the order of keys:
the sorted form stands for all values that differ in nothing else.
-/

namespace KclModels

namespace Value

/-! ## What holds of every object in a value -/

/-- Every object in the value has fields of which `P` is true. -/
inductive Everywhere (P : List (String × Value) → Prop) : Value → Prop
  | null : Everywhere P .null
  | bool (b : Bool) : Everywhere P (.bool b)
  | num (n : Number) : Everywhere P (.num n)
  | str (s : String) : Everywhere P (.str s)
  | arr {items : List Value} : (∀ v ∈ items, Everywhere P v) → Everywhere P (.arr items)
  | obj {fields : List (String × Value)} :
      P fields → (∀ f ∈ fields, Everywhere P f.2) → Everywhere P (.obj fields)

/-- No object in the value has a key twice. -/
def KeysApart : Value → Prop := Everywhere fun fields => (Assoc.keys fields).Nodup

/-- The keys of every object in the value are in order, none of them twice. -/
def KeysInOrder : Value → Prop := Everywhere Assoc.Sorted

/-- Values that are equal but for the order of the keys of their objects. -/
inductive Reordered : Value → Value → Prop
  | null : Reordered .null .null
  | bool (b : Bool) : Reordered (.bool b) (.bool b)
  | num (n : Number) : Reordered (.num n) (.num n)
  | str (s : String) : Reordered (.str s) (.str s)
  | arr {items items' : List Value} :
      List.Forall₂ Reordered items items' → Reordered (.arr items) (.arr items')
  | obj {fields fields' : List (String × Value)} :
      (Assoc.keys fields).Perm (Assoc.keys fields') →
      (∀ name v v', (name, v) ∈ fields → (name, v') ∈ fields' → Reordered v v') →
      Reordered (.obj fields) (.obj fields')

variable {v w : Value} {items : List Value} {fields fields' : List (String × Value)}
variable {P Q : List (String × Value) → Prop}

theorem everywhere_arr : Everywhere P (.arr items) ↔ ∀ v ∈ items, Everywhere P v :=
  ⟨fun h => by cases h with | arr hitems => exact hitems, .arr⟩

theorem everywhere_obj :
    Everywhere P (.obj fields) ↔ P fields ∧ ∀ f ∈ fields, Everywhere P f.2 :=
  ⟨fun h => by cases h with | obj hP hfields => exact ⟨hP, hfields⟩, fun h => .obj h.1 h.2⟩

theorem Everywhere.mono (hPQ : ∀ fields, P fields → Q fields) (h : Everywhere P v) :
    Everywhere Q v := by
  induction h with
  | null => exact .null
  | bool b => exact .bool b
  | num n => exact .num n
  | str s => exact .str s
  | arr _ ih => exact .arr ih
  | obj hP _ ih => exact .obj (hPQ _ hP) ih

/-! ## Sorting -/

theorem sortedItems_eq (items : List Value) : sortedItems items = items.map sorted := by
  induction items with
  | nil => rfl
  | cons v rest ih => rw [sortedItems, ih, List.map_cons]

theorem sortedFields_eq (fields : List (String × Value)) :
    sortedFields fields = fields.map fun f => (f.1, f.2.sorted) := by
  induction fields with
  | nil => rfl
  | cons f rest ih => rw [sortedFields, ih, List.map_cons]

/-- The fields of a sorted object: the sorted values by the same keys. -/
theorem mem_sortedFields {name : String} :
    (name, w) ∈ sortBy fieldLE (sortedFields fields) ↔ ∃ v, (name, v) ∈ fields ∧ v.sorted = w := by
  rw [mem_sortBy, sortedFields_eq, List.mem_map]
  constructor
  · rintro ⟨f, hf, heq⟩
    obtain ⟨rfl, rfl⟩ := Prod.mk.inj heq
    exact ⟨f.2, hf, rfl⟩
  · rintro ⟨v, hv, rfl⟩
    exact ⟨(name, v), hv, rfl⟩

theorem keys_sortedFields (fields : List (String × Value)) :
    Assoc.keys (sortedFields fields) = Assoc.keys fields := by
  rw [sortedFields_eq, Assoc.keys, List.map_map]
  rfl

theorem keys_sortedFields_perm (fields : List (String × Value)) :
    (Assoc.keys (sortBy fieldLE (sortedFields fields))).Perm (Assoc.keys fields) :=
  ((sortBy_perm fieldLE _).map Prod.fst).trans (.of_eq (keys_sortedFields fields))

/-- Fields with different keys are put in order, none of their keys twice. -/
theorem sorted_sortedFields (h : (Assoc.keys fields).Nodup) :
    Assoc.Sorted (sortBy fieldLE (sortedFields fields)) := by
  refine Assoc.sorted_sortBy ?_
  rwa [keys_sortedFields]

/-- A sorted value is the value but for the order of keys. -/
theorem sorted_reordered (h : v.KeysApart) : v.sorted.Reordered v := by
  induction h with
  | null => exact .null
  | bool b => exact .bool b
  | num n => exact .num n
  | str s => exact .str s
  | arr _ ih =>
    rw [sorted, sortedItems_eq]
    exact .arr (List.forall₂_map_left_iff.mpr (List.forall₂_same.mpr ih))
  | @obj fields hkeys _ ih =>
    refine .obj (keys_sortedFields_perm fields) fun name w v' hw hv' => ?_
    obtain ⟨v, hv, rfl⟩ := mem_sortedFields.mp hw
    -- a key that is there once has one value
    obtain rfl := Option.some.inj ((Assoc.lookup_of_mem hkeys hv).symm.trans
      (Assoc.lookup_of_mem hkeys hv'))
    exact ih (name, v) hv

theorem sorted_keysInOrder (h : v.KeysApart) : v.sorted.KeysInOrder := by
  induction h with
  | null => exact .null
  | bool b => exact .bool b
  | num n => exact .num n
  | str s => exact .str s
  | arr _ ih =>
    rw [sorted, sortedItems_eq]
    exact .arr (List.forall_mem_map.mpr ih)
  | obj hkeys _ ih =>
    refine .obj (sorted_sortedFields hkeys) fun f hf => ?_
    obtain ⟨v, hv, heq⟩ := mem_sortedFields.mp (show (f.1, f.2) ∈ _ from hf)
    exact heq ▸ ih (f.1, v) hv

/-- A value whose keys are in order stays as it is. -/
theorem sorted_of_keysInOrder (h : v.KeysInOrder) : v.sorted = v := by
  induction h with
  | null => rfl
  | bool b => rfl
  | num n => rfl
  | str s => rfl
  | arr _ ih => rw [sorted, sortedItems_eq, List.map_congr_left ih, List.map_id']
  | @obj fields hsorted _ ih =>
    have hfields : fields.map (fun f => (f.1, f.2.sorted)) = fields := by
      conv_rhs => rw [← List.map_id' fields]
      exact List.map_congr_left fun f hf => Prod.ext rfl (ih f hf)
    rw [sorted, sortedFields_eq, hfields, sortBy_of_pairwise]
    exact (List.pairwise_map.mp hsorted).imp fun hlt => by simpa [fieldLE] using le_of_lt hlt

/-- Lists are related in each place where what is made of their elements is equal. -/
theorem forall₂_iff_map_eq {α β : Type} {R : α → α → Prop} {f : α → β} {l l' : List α}
    (h : ∀ a ∈ l, ∀ b ∈ l', R a b ↔ f a = f b) : List.Forall₂ R l l' ↔ l.map f = l'.map f := by
  induction l generalizing l' with
  | nil => cases l' <;> simp
  | cons a rest ih =>
    cases l' with
    | nil => simp
    | cons b rest' =>
      rw [List.forall₂_cons, List.map_cons, List.map_cons, List.cons_eq_cons,
        h a List.mem_cons_self b List.mem_cons_self,
        ih fun a ha b hb => h a (List.mem_cons_of_mem _ ha) b (List.mem_cons_of_mem _ hb)]

/-- Objects whose values by each key are sorted alike have the same sorted fields. -/
theorem mem_sortedFields_of_subset (hkeys : Assoc.keys fields ⊆ Assoc.keys fields')
    (hvalues : ∀ name v v', (name, v) ∈ fields → (name, v') ∈ fields' → v.sorted = v'.sorted)
    {f : String × Value} (hf : f ∈ sortBy fieldLE (sortedFields fields)) :
    f ∈ sortBy fieldLE (sortedFields fields') := by
  obtain ⟨name, w⟩ := f
  obtain ⟨v, hv, rfl⟩ := mem_sortedFields.mp hf
  obtain ⟨⟨name', v'⟩, hv', rfl⟩ := List.mem_map.mp (hkeys (List.mem_map.mpr ⟨_, hv, rfl⟩))
  exact mem_sortedFields.mpr ⟨v', hv', (hvalues _ v v' hv hv').symm⟩

theorem sortedFields_eq_of_values (hnodup : (Assoc.keys fields).Nodup)
    (hkeys : (Assoc.keys fields).Perm (Assoc.keys fields'))
    (hvalues : ∀ name v v', (name, v) ∈ fields → (name, v') ∈ fields' → v.sorted = v'.sorted) :
    sortBy fieldLE (sortedFields fields) = sortBy fieldLE (sortedFields fields') := by
  have hsorted := sorted_sortedFields hnodup
  have hsorted' := sorted_sortedFields (hkeys.nodup_iff.mp hnodup)
  refine Assoc.eq_of_perm_of_sorted ?_ hsorted hsorted'
  refine (List.perm_ext_iff_of_nodup (List.Nodup.of_map _ hsorted.nodup)
    (List.Nodup.of_map _ hsorted'.nodup)).mpr fun f => ⟨?_, ?_⟩
  · exact mem_sortedFields_of_subset hkeys.subset hvalues
  · exact mem_sortedFields_of_subset hkeys.symm.subset fun name v' v hv' hv =>
      (hvalues name v v' hv hv').symm

/-- Objects that are sorted alike have the same keys, and values that are sorted alike by each. -/
theorem values_of_sortedFields_eq (hnodup' : (Assoc.keys fields').Nodup)
    (h : sortBy fieldLE (sortedFields fields) = sortBy fieldLE (sortedFields fields')) :
    (Assoc.keys fields).Perm (Assoc.keys fields') ∧
      ∀ name v v', (name, v) ∈ fields → (name, v') ∈ fields' → v.sorted = v'.sorted := by
  refine ⟨?_, fun name v v' hv hv' => ?_⟩
  · exact (keys_sortedFields_perm fields).symm.trans (h ▸ keys_sortedFields_perm fields')
  · obtain ⟨v'', hv'', heq⟩ := mem_sortedFields.mp (h ▸ mem_sortedFields.mpr ⟨v, hv, rfl⟩)
    obtain rfl := Option.some.inj ((Assoc.lookup_of_mem hnodup' hv').symm.trans
      (Assoc.lookup_of_mem hnodup' hv''))
    exact heq.symm

/-- **Values are sorted alike just if they are equal but for the order of keys.** -/
theorem sorted_eq_iff (hv : v.KeysApart) (hw : w.KeysApart) :
    v.sorted = w.sorted ↔ v.Reordered w := by
  induction hv generalizing w with
  | null =>
    refine ⟨fun h => ?_, fun h => by cases h; rfl⟩
    cases w <;> simp [sorted] at h
    exact .null
  | bool b =>
    refine ⟨fun h => ?_, fun h => by cases h; rfl⟩
    cases w <;> simp [sorted] at h
    exact h ▸ .bool b
  | num n =>
    refine ⟨fun h => ?_, fun h => by cases h; rfl⟩
    cases w <;> simp [sorted] at h
    exact h ▸ .num n
  | str s =>
    refine ⟨fun h => ?_, fun h => by cases h; rfl⟩
    cases w <;> simp [sorted] at h
    exact h ▸ .str s
  | @arr items _ ih =>
    -- items in their order, each sorted alike
    have hitems : ∀ items', (Value.arr items').KeysApart →
        (List.Forall₂ Reordered items items' ↔ items.map sorted = items'.map sorted) :=
      fun items' hw => forall₂_iff_map_eq fun a ha b hb => (ih a ha (everywhere_arr.mp hw b hb)).symm
    constructor
    · intro h
      cases w <;> simp [sorted, sortedItems_eq] at h
      exact .arr ((hitems _ hw).mpr h)
    · intro h
      cases h with
      | arr hall => rw [sorted, sorted, sortedItems_eq, sortedItems_eq, (hitems _ hw).mp hall]
  | @obj fields hnodup _ ih =>
    -- keys are apart, so a value is known by its key
    have hvalue : ∀ fields', (Value.obj fields').KeysApart → ∀ name a b, (name, a) ∈ fields →
        (name, b) ∈ fields' → (a.sorted = b.sorted ↔ a.Reordered b) :=
      fun fields' hw name a b ha hb => ih (name, a) ha ((everywhere_obj.mp hw).2 (name, b) hb)
    constructor
    · intro h
      cases w <;> simp [sorted] at h
      obtain ⟨hkeys, hvalues⟩ := values_of_sortedFields_eq (everywhere_obj.mp hw).1 h
      exact .obj hkeys fun name a b ha hb =>
        (hvalue _ hw name a b ha hb).mp (hvalues name a b ha hb)
    · intro h
      cases h with
      | obj hkeys hvalues =>
        rw [sorted, sorted, sortedFields_eq_of_values hnodup hkeys]
        exact fun name a b ha hb => (hvalue _ hw name a b ha hb).mpr (hvalues name a b ha hb)

/--
**Sorted values are a canonical form.** A sorted value is the value but for the order of keys, its
keys are in order at every depth, and it is not changed by sorting; and it is the same for just the
values that are equal but for the order of keys.
-/
theorem sorted_canonical (hv : v.KeysApart) :
    (v.ordered false).Reordered v ∧ (v.ordered false).KeysInOrder ∧
      (v.ordered false).ordered false = v.ordered false ∧
      ∀ w : Value, w.KeysApart → (v.ordered false = w.ordered false ↔ v.Reordered w) :=
  ⟨sorted_reordered hv, sorted_keysInOrder hv, sorted_of_keysInOrder (sorted_keysInOrder hv),
    fun _ hw => sorted_eq_iff hv hw⟩

/-- A port with a range of numbers, and the same with its keys in order. -/
def port : Value := .obj [("range", .arr [.num (.int 9), .num (.int 1)]),
  ("name", .obj [("short", .str "p"), ("long", .str "port")])]

def sortedPort : Value := .obj [("name", .obj [("long", .str "port"), ("short", .str "p")]),
  ("range", .arr [.num (.int 9), .num (.int 1)])]

theorem port_canonical : port.KeysApart ∧ sortedPort.KeysApart ∧ port.ordered false = sortedPort ∧
    sortedPort.KeysInOrder ∧ port.Reordered sortedPort := by
  have hname : ∀ a b c d, a ≠ c → (Value.obj [(a, .str b), (c, .str d)]).KeysApart := by
    intro a b c d hne
    exact .obj (by simpa [Assoc.keys] using hne) (by simp [Everywhere.str])
  have hrange : (Value.arr [.num (.int 9), .num (.int 1)]).KeysApart :=
    .arr (by simp [Everywhere.num])
  have hport : port.KeysApart :=
    .obj (by decide) (by simpa using ⟨hrange, hname _ _ _ _ (by decide)⟩)
  have hsorted : sortedPort.KeysApart :=
    .obj (by decide) (by simpa using ⟨hname _ _ _ _ (by decide), hrange⟩)
  obtain ⟨-, hinOrder, -, hiff⟩ := sorted_canonical hport
  exact ⟨hport, hsorted, rfl, hinOrder, (hiff sortedPort hsorted).mp rfl⟩

end Value

/-! ## Values of documents -/

namespace Node

theorem eq_of_finish {α : Type} {closed : Bool} {a b : α} (h : finish closed a = .ok b) :
    a = b := by
  unfold finish at h
  split at h
  · exact Except.ok.inj h
  · cases h

theorem scalar_keysApart {s : Scalar} {v : Value} (h : s.value? = some v) : v.KeysApart := by
  unfold Scalar.value? at h
  split at h
  · exact Option.some.inj h ▸ .null
  · exact Option.some.inj h ▸ .bool _
  · exact Option.some.inj h ▸ .num _
  · rename_i x _
    by_cases hfinite : x.isFinite = true
    · rw [if_pos hfinite] at h
      exact Option.some.inj h ▸ .num _
    · rw [if_neg hfinite] at h
      exact Option.some.inj h ▸ .null
  · exact Option.some.inj h ▸ .str _
  · cases h

mutual

/-- **What is read of a document has no key twice.** -/
theorem value_keysApart (how : Reading) : ∀ (n : Node) (v : Value), value how n = .ok v → v.KeysApart
  | .scalar s, v, h => by
    rw [value] at h
    split at h
    · rename_i w hw
      obtain rfl := Except.ok.inj h
      exact scalar_keysApart hw
    · cases h
  | .arr items closed, v, h => by
    obtain ⟨values, hvalues, h⟩ := bind_eq_ok.mp h
    rw [← eq_of_finish h]
    exact .arr (valueItems_keysApart how items values hvalues)
  | .obj fields closed, v, h => by
    obtain ⟨values, hvalues, h⟩ := bind_eq_ok.mp h
    rw [← eq_of_finish h]
    refine .obj (Assoc.nodup_keys_ofPairs values) fun f hf => ?_
    exact valueFields_keysApart how fields values hvalues f (Assoc.mem_ofPairs hf)
  | .tagged n, v, h => nomatch h
  | .broken, v, h => nomatch h
  | .refused n, v, h => nomatch h

theorem valueItems_keysApart (how : Reading) : ∀ (items : List Node) (values : List Value),
    valueItems how items = .ok values → ∀ v ∈ values, v.KeysApart
  | [], values, h => by
    obtain rfl := Except.ok.inj h
    exact fun v hv => absurd hv List.not_mem_nil
  | n :: rest, values, h => by
    obtain ⟨v, hv, h⟩ := bind_eq_ok.mp h
    obtain ⟨others, hothers, h⟩ := bind_eq_ok.mp h
    obtain rfl := Except.ok.inj h
    exact List.forall_mem_cons.mpr
      ⟨value_keysApart how n v hv, valueItems_keysApart how rest others hothers⟩

theorem valueFields_keysApart (how : Reading) :
    ∀ (fields : List (Node × Node)) (values : List (String × Value)),
      valueFields how fields = .ok values → ∀ f ∈ values, f.2.KeysApart
  | [], values, h => by
    obtain rfl := Except.ok.inj h
    exact fun v hv => absurd hv List.not_mem_nil
  | (key, n) :: rest, values, h => by
    obtain ⟨name, -, h⟩ := bind_eq_ok.mp h
    obtain ⟨v, hv, h⟩ := bind_eq_ok.mp h
    obtain ⟨others, hothers, h⟩ := bind_eq_ok.mp h
    obtain rfl := Except.ok.inj h
    exact List.forall_mem_cons.mpr
      ⟨value_keysApart how n v hv, valueFields_keysApart how rest others hothers⟩

end

end Node

end KclModels
