import Mathlib.Data.List.Forall2
import KclModels.Model.Basic

/-!
# Models inside models

The models below a model are its parts and the models below those. Only the parts and the facts of
a model change while a frame is built; a model that was put in place as a part is left alone, but
for facts that say how it is used there.
-/

namespace KclModels.Model

/-- The models directly below a model. -/
def parts (m : Model) : List Model :=
  m.items.toList ++ m.additionalItems.toList ++ m.properties ++ m.allOf ++
    m.additionalProperties.toList

/-- `n.Within m`: the model `n` is `m` or stands somewhere below it. -/
inductive Within : Model → Model → Prop
  | refl (m : Model) : Within m m
  | part {n p m : Model} : p ∈ m.parts → Within n p → Within n m

/-- What holds of a model and of all models below it. -/
def Everywhere (P : Model → Prop) (m : Model) : Prop := ∀ n : Model, n.Within m → P n

variable {P Q : Model → Prop} {m p : Model}

theorem Everywhere.here (h : m.Everywhere P) : P m := h m (.refl m)

theorem Everywhere.part (h : m.Everywhere P) (hp : p ∈ m.parts) : p.Everywhere P :=
  fun n hn => h n (.part hp hn)

theorem everywhere_of_parts (hm : P m) (hp : ∀ p ∈ m.parts, p.Everywhere P) :
    m.Everywhere P := by
  intro n hn
  cases hn with
  | refl => exact hm
  | part hmem hn => exact hp _ hmem n hn

theorem Everywhere.mono (h : m.Everywhere P) (hPQ : ∀ n, P n → Q n) : m.Everywhere Q :=
  fun n hn => hPQ n (h n hn)

theorem mem_parts_iff :
    p ∈ m.parts ↔ m.items = some p ∨ m.additionalItems = some p ∨ p ∈ m.properties ∨
      p ∈ m.allOf ∨ m.additionalProperties = some p := by
  simp [parts]

end KclModels.Model

/-!
## Positions in models

The same model may stand at several places of a tree, so what happens to a tree at one place is told
by the way to it from the root: a list of edges, each from a model to one of its parts.
-/

namespace KclModels.Model

/-- The lists of parts of a model. -/
inductive Row
  | properties
  | branches
deriving DecidableEq, Repr

/-- An edge from a model to one of its parts. -/
inductive Edge
  | items
  | additionalItems
  | values
  | child (row : Row) (index : Nat)
deriving DecidableEq, Repr

/-- A way from a model to one below it. -/
abbrev Position := List Edge

/-- The edge to a property. -/
abbrev Edge.property (index : Nat) : Edge := .child .properties index

/-- The edge to a branch of the composition. -/
abbrev Edge.branch (index : Nat) : Edge := .child .branches index

def row (m : Model) : Row → List Model
  | .properties => m.properties
  | .branches => m.allOf

def setRow (m : Model) (l : List Model) : Row → Model
  | .properties => { m with properties := l }
  | .branches => { m with allOf := l }

/-- The part of a model at an edge. -/
def part? (m : Model) : Edge → Option Model
  | .items => m.items
  | .additionalItems => m.additionalItems
  | .values => m.additionalProperties
  | .child row index => (m.row row)[index]?

/-- Puts another part at an edge; a list keeps its length. -/
def setPart (m : Model) (p : Option Model) : Edge → Model
  | .items => { m with items := p }
  | .additionalItems => { m with additionalItems := p }
  | .values => { m with additionalProperties := p }
  | .child row index => m.setRow ((m.row row).set index (p.getD {})) row

/-- The model at a position. -/
def at? (m : Model) : Position → Option Model
  | [] => some m
  | e :: rest => (m.part? e).bind (at? · rest)

variable {m p q : Model} {e e' : Edge} {r : Row} {l : List Model}

@[simp]
theorem row_setRow (m : Model) (l : List Model) (r : Row) : (m.setRow l r).row r = l := by
  cases r <;> rfl

@[simp]
theorem setRow_setRow (m : Model) (l l' : List Model) (r : Row) :
    (m.setRow l r).setRow l' r = m.setRow l' r := by
  cases r <;> rfl

@[simp]
theorem setRow_row (m : Model) (r : Row) : m.setRow (m.row r) r = m := by
  cases m
  cases r <;> rfl

theorem part?_setPart (h : m.part? e = some q) (p : Model) :
    (m.setPart (some p) e).part? e = some p := by
  cases e with
  | items => rfl
  | additionalItems => rfl
  | values => rfl
  | child r index =>
    obtain ⟨hlt, -⟩ := List.getElem?_eq_some_iff.mp h
    rw [setPart, part?, row_setRow, List.getElem?_set_self hlt]
    rfl

theorem row_setRow_of_ne {r' : Row} (h : r ≠ r') (m : Model) (l : List Model) :
    (m.setRow l r).row r' = m.row r' := by
  cases r <;> cases r' <;> first | rfl | exact absurd rfl h

theorem part?_setRow (m : Model) (l : List Model) (he : ∀ index, e ≠ .child r index) :
    (m.setRow l r).part? e = m.part? e := by
  cases e with
  | items => cases r <;> rfl
  | additionalItems => cases r <;> rfl
  | values => cases r <;> rfl
  | child r' index =>
    have hne : r ≠ r' := by
      rintro rfl
      exact he index rfl
    rw [part?, part?, row_setRow_of_ne hne]

/-- Putting a part leaves the other parts alone. -/
theorem part?_setPart_of_ne (h : e ≠ e') (m : Model) (p : Option Model) :
    (m.setPart p e).part? e' = m.part? e' := by
  cases e with
  | items => cases e' <;> first | rfl | exact absurd rfl h
  | additionalItems => cases e' <;> first | rfl | exact absurd rfl h
  | values => cases e' <;> first | rfl | exact absurd rfl h
  | child r index =>
    by_cases hr : ∃ index', e' = .child r index'
    · obtain ⟨index', rfl⟩ := hr
      have hne : index ≠ index' := fun heq => h (heq ▸ rfl)
      rw [setPart, part?, part?, row_setRow, List.getElem?_set_ne hne]
    · exact part?_setRow m _ fun index' heq => hr ⟨index', heq⟩

theorem at?_append (m : Model) (p q : Position) :
    m.at? (p ++ q) = (m.at? p).bind (at? · q) := by
  induction p generalizing m with
  | nil => rfl
  | cons e rest ih =>
    rw [List.cons_append, at?, at?, Option.bind_assoc]
    exact Option.bind_congr fun c _ => ih c

theorem at?_single (m : Model) (e : Edge) : m.at? [e] = m.part? e := by
  cases h : m.part? e <;> simp [at?, h]

theorem mem_parts_of_part? (h : m.part? e = some p) : p ∈ m.parts := by
  rw [mem_parts_iff]
  cases e with
  | items => exact Or.inl h
  | additionalItems => exact Or.inr (Or.inl h)
  | values => exact Or.inr (Or.inr (Or.inr (Or.inr h)))
  | child r index =>
    cases r with
    | properties => exact Or.inr (Or.inr (Or.inl (List.mem_of_getElem? h)))
    | branches => exact Or.inr (Or.inr (Or.inr (Or.inl (List.mem_of_getElem? h))))

theorem setPart_setPart (m : Model) (p q : Option Model) (e : Edge) :
    (m.setPart p e).setPart q e = m.setPart q e := by
  cases e with
  | items => rfl
  | additionalItems => rfl
  | values => rfl
  | child r index =>
    rw [setPart, setPart, setPart, row_setRow, setRow_setRow, List.set_set]

/-- Putting a part where it is changes nothing. -/
theorem setPart_part? (m : Model) (e : Edge) : m.setPart (m.part? e) e = m := by
  cases e with
  | items => cases m; rfl
  | additionalItems => cases m; rfl
  | values => cases m; rfl
  | child r index =>
    rw [setPart, part?]
    rcases Nat.lt_or_ge index (m.row r).length with hlt | hle
    · rw [List.getElem?_eq_getElem hlt, Option.getD_some, List.set_getElem_self, setRow_row]
    · rw [List.set_eq_of_length_le hle, setRow_row]

/-! ### Models that differ in the texts of types -/

/-- A type without its text. -/
def typeOutline (t : TypeInfo) : TypeInfo := { t with kclType := "", packageAlias := "" }

/-- What a model is apart from the models below it and from the text of its type. -/
def outline (m : Model) : ModelFacts := { m.toModelFacts with type := typeOutline m.type }

/-- The models differ nowhere but in the texts of types. -/
def Alike (m m' : Model) : Prop := ∀ p : Position, (m.at? p).map outline = (m'.at? p).map outline

variable {m' m'' : Model}

theorem Alike.refl (m : Model) : m.Alike m := fun _ => rfl

theorem Alike.symm (h : m.Alike m') : m'.Alike m := fun p => (h p).symm

theorem Alike.trans (h : m.Alike m') (h' : m'.Alike m'') : m.Alike m'' :=
  fun p => (h p).trans (h' p)

theorem Alike.outline (h : m.Alike m') : m.outline = m'.outline := Option.some.inj (h [])

theorem Alike.name (h : m.Alike m') : m.name = m'.name := by
  change m.outline.name = m'.outline.name
  rw [h.outline]

theorem Alike.isBase (h : m.Alike m') : m.isBase = m'.isBase := by
  change m.outline.isBase = m'.outline.isBase
  rw [h.outline]

theorem Alike.isReferenced (h : m.Alike m') : m.isReferenced = m'.isReferenced := by
  change (m.outline.reference.isSome && m.outline.type.complex) =
    (m'.outline.reference.isSome && m'.outline.type.complex)
  rw [h.outline]

theorem Alike.at?_isSome (h : m.Alike m') (p : Position) :
    (m.at? p).isSome = (m'.at? p).isSome := by
  have hmap := congrArg Option.isSome (h p)
  rwa [Option.isSome_map, Option.isSome_map] at hmap

/-- Models are alike if they have the same outline and their parts are alike. -/
theorem alike_of_parts (houtline : m.outline = m'.outline)
    (hparts : ∀ e, m.part? e = m'.part? e ∨
      ∃ p p', m.part? e = some p ∧ m'.part? e = some p' ∧ p.Alike p') : m.Alike m' := by
  intro p
  cases p with
  | nil => exact congrArg some houtline
  | cons e rest =>
    rw [at?, at?]
    rcases hparts e with heq | ⟨p, p', hp, hp', halike⟩
    · rw [heq]
    · rw [hp, hp']
      exact halike rest

/-- The parts of models that are alike are alike. -/
theorem Alike.part (h : m.Alike m') (hp : m.part? e = some p) :
    ∃ p', m'.part? e = some p' ∧ p.Alike p' := by
  have hsome : (m'.part? e).isSome := by
    have := h.at?_isSome [e]
    rw [at?_single, at?_single, hp] at this
    exact this.symm
  obtain ⟨p', hp'⟩ := Option.isSome_iff_exists.mp hsome
  refine ⟨p', hp', fun rest => ?_⟩
  have := h (e :: rest)
  rwa [at?, at?, hp, hp'] at this

/-- A part of models that are alike has the same facts, if these are of outlines. -/
theorem Alike.map_part {α : Type} (h : m.Alike m') (e : Edge) (f : Model → α)
    (hf : ∀ p p', p.Alike p' → f p = f p') : (m.part? e).map f = (m'.part? e).map f := by
  cases hp : m.part? e with
  | some p =>
    obtain ⟨p', hp', halike⟩ := h.part hp
    rw [hp']
    exact congrArg some (hf p p' halike)
  | none =>
    have hnone := h.at?_isSome [e]
    rw [at?_single, at?_single, hp] at hnone
    cases hp' : m'.part? e with
    | none => rfl
    | some p' => simp [hp'] at hnone

/-- Rows of models that are alike have the same facts of each model, if these are of outlines. -/
theorem Alike.map_row {α : Type} (h : m.Alike m') (r : Row) (f : Model → α)
    (hf : ∀ p p', p.Alike p' → f p = f p') : (m.row r).map f = (m'.row r).map f := by
  refine List.ext_getElem? fun index => ?_
  rw [List.getElem?_map, List.getElem?_map]
  exact h.map_part (.child r index) f hf

/-- The models in a row are alike one by one. -/
theorem Alike.forall₂_row (h : m.Alike m') (r : Row) :
    List.Forall₂ Alike (m.row r) (m'.row r) := by
  have hlength := congrArg List.length (h.map_row r (fun _ => ()) fun _ _ _ => rfl)
  rw [List.length_map, List.length_map] at hlength
  refine List.forall₂_iff_get.mpr ⟨hlength, fun i hi hi' => ?_⟩
  have hp : m.part? (.child r i) = some (m.row r)[i] := List.getElem?_eq_getElem hi
  obtain ⟨p', hp', halike⟩ := h.part hp
  obtain rfl := Option.some.inj (hp'.symm.trans (List.getElem?_eq_getElem hi'))
  exact halike

/-- A model in a row is alike one in the row of the other. -/
theorem Alike.exists_row (h : m.Alike m') {r : Row} {p' : Model} (hp : p' ∈ m'.row r) :
    ∃ p ∈ m.row r, p.Alike p' := by
  obtain ⟨index, hindex⟩ := List.mem_iff_getElem?.mp hp
  have hpart : m'.part? (.child r index) = some p' := hindex
  obtain ⟨p, hp, halike⟩ := h.symm.part hpart
  exact ⟨p, List.mem_of_getElem? hp, halike.symm⟩

theorem Alike.parentBranch (h : m.Alike m') : m.parentBranch = m'.parentBranch := by
  have hrow : ∀ f : Model → Bool, (∀ p p', p.Alike p' → f p = f p') →
      m.allOf.findIdx? f = m'.allOf.findIdx? f := by
    intro f hf
    have hmap := h.map_row .branches f hf
    have hidx := congrArg (List.findIdx? id) hmap
    rwa [List.findIdx?_map, List.findIdx?_map] at hidx
  have hboth : ∀ p p' : Model, p.Alike p' →
      (p.isReferenced && p.isBase) = (p'.isReferenced && p'.isBase) := by
    intro p p' hp
    rw [hp.isReferenced, hp.isBase]
  unfold Model.parentBranch
  rw [hrow _ fun _ _ hp => hp.isReferenced, hrow _ hboth]

end KclModels.Model
