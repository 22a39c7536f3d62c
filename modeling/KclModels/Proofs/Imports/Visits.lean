import Mathlib.Data.List.Nodup
import KclModels.Proofs.Imports.Collecting
import KclModels.Proofs.Model.Positions

/-!
# Visits

Collecting the imports of a file goes through a tree of models and writes types out as it goes. Taken
apart, it is a row of visits: each is to one position, and changes the type of the model there and
the imports, nothing else. The parts of a model are visited before the model, so its type is written
out of theirs. No position is visited twice.
-/

namespace KclModels.Imports

open Model

variable [Text.Transliteration]

/-- What is visited of a model: its type with those of its parts, or only the name of its type. -/
inductive Visit
  | whole (position : Position)
  | name (position : Position)

namespace Visit

def position : Visit → Position
  | whole position => position
  | name position => position

/-- The visit, told from one edge above. -/
def below (e : Edge) : Visit → Visit
  | whole position => whole (e :: position)
  | name position => name (e :: position)

end Visit

/-- Writes the type of a model out of those of its parts. -/
def writeType (target : String) (m : Model) (i : Imports) : Model × Imports :=
  let (type, i) := qualify target (rebracket m.type m.items m.additionalProperties) i
  ({ m with type }, i)

/-- Writes the name of the type of a model. -/
def writeName (target : String) (m : Model) (i : Imports) : Model × Imports :=
  let (type, i) := qualify target m.type i
  ({ m with type }, i)

theorem writeType_eq (target : String) (m : Model) (i : Imports) :
    writeType target m i =
      ({ m with type := (qualify target (rebracket m.type m.items m.additionalProperties) i).1 },
        (qualify target (rebracket m.type m.items m.additionalProperties) i).2) := by
  unfold writeType
  generalize qualify target _ i = qualified
  rfl

theorem writeName_eq (target : String) (m : Model) (i : Imports) :
    writeName target m i =
      ({ m with type := (qualify target m.type i).1 }, (qualify target m.type i).2) := by
  unfold writeName
  generalize qualify target _ i = qualified
  rfl

/-- Does something to the model at a position. -/
def atPosition (write : Model → Imports → Model × Imports) :
    Position → Model → Imports → Model × Imports
  | [], m, i => write m i
  | e :: rest, m, i =>
    match m.part? e with
    | none => (m, i)
    | some p =>
      let (p, i) := atPosition write rest p i
      (m.setPart (some p) e, i)

/-- One visit. -/
def Visit.run (target : String) : Visit → Model × Imports → Model × Imports
  | whole position, s => atPosition (writeType target) position s.1 s.2
  | name position, s => atPosition (writeName target) position s.1 s.2

/-- One visit after the other. -/
def runVisits (target : String) (visits : List Visit) (s : Model × Imports) : Model × Imports :=
  visits.foldl (fun s visit => visit.run target s) s

variable {target : String} {m p : Model} {i : Imports} {e : Edge} {visits visits' : List Visit}

theorem runVisits_append (s : Model × Imports) : runVisits target (visits ++ visits') s =
    runVisits target visits' (runVisits target visits s) := List.foldl_append

theorem runVisits_whole (m : Model) (i : Imports) :
    runVisits target [.whole []] (m, i) = writeType target m i := by
  simp only [runVisits, List.foldl_cons, List.foldl_nil, Visit.run, atPosition]

theorem run_below (h : m.part? e = some p) (visit : Visit) :
    (visit.below e).run target (m, i) =
      (m.setPart (some (visit.run target (p, i)).1) e, (visit.run target (p, i)).2) := by
  cases visit <;>
  · simp only [Visit.below, Visit.run, atPosition, h]

/-- Visits below an edge are visits of the part at the edge. -/
theorem runVisits_below (h : m.part? e = some p) :
    runVisits target (visits.map (.below e)) (m, i) =
      (m.setPart (some (runVisits target visits (p, i)).1) e,
        (runVisits target visits (p, i)).2) := by
  induction visits generalizing m p i with
  | nil =>
    rw [List.map_nil, runVisits, runVisits, List.foldl_nil, List.foldl_nil, ← h, setPart_part?]
  | cons visit rest ih =>
    rw [List.map_cons]
    unfold runVisits at ih ⊢
    rw [List.foldl_cons, List.foldl_cons, run_below h, ih (part?_setPart h _), setPart_setPart]

/-! ## The visits of a tree -/

mutual

/-- The visits of a model and of all models below it. -/
def visitsOf : Model → List Visit
  | ⟨_, items, extraItems, properties, allOf, value⟩ =>
    (visitsOfOption items).map (.below .items) ++
      (visitsOfOption extraItems).map (.below .additionalItems) ++
      visitsOfList properties .properties 0 ++ (visitsOfOption value).map (.below .values) ++
      visitsOfList allOf .branches 0 ++ [.whole []]

def visitsOfOption : Option Model → List Visit
  | none => []
  | some m => visitsOf m

/-- The visits of models in a row, from number `index` on. -/
def visitsOfList : List Model → (row : Row) → (index : Nat) → List Visit
  | [], _, _ => []
  | m :: rest, row, index =>
    (visitsOf m).map (.below (.child row index)) ++ visitsOfList rest row (index + 1)

end

mutual

/-- **Collecting is visiting.** -/
theorem collect_eq_runVisits (target : String) : ∀ (m : Model) (i : Imports),
    runVisits target (visitsOf m) (m, i) = collect target m i
  | ⟨facts, items, extraItems, properties, allOf, value⟩, i => by
    have hitems := collectOption_eq_runVisits target items .items
    have hextra := collectOption_eq_runVisits target extraItems .additionalItems
    have hprops := collectList_eq_runVisits target properties .properties []
    have hvalue := collectOption_eq_runVisits target value .values
    have hall := collectList_eq_runVisits target allOf .branches []
    simp only [List.length_nil, List.nil_append] at hprops hall
    simp only [visitsOf, runVisits_append]
    rw [hitems, hextra, hprops, hvalue, hall, runVisits_whole, writeType, collect]
    · simp only [setPart, setRow]
    all_goals rfl

theorem collectOption_eq_runVisits (target : String) : ∀ (o : Option Model) (e : Edge) (m : Model)
    (i : Imports), m.part? e = o → runVisits target ((visitsOfOption o).map (.below e)) (m, i) =
      (m.setPart (collectOption target o i).1 e, (collectOption target o i).2)
  | none, e, m, i, h => by
    rw [visitsOfOption, collectOption, ← h, setPart_part?]
    rfl
  | some p, e, m, i, h => by
    rw [visitsOfOption, runVisits_below h, collect_eq_runVisits target p i, collectOption]

theorem collectList_eq_runVisits (target : String) : ∀ (l : List Model) (row : Row)
    (done : List Model) (m : Model) (i : Imports), m.row row = done ++ l →
      runVisits target (visitsOfList l row done.length) (m, i) =
        (m.setRow (done ++ (collectList target l i).1) row, (collectList target l i).2)
  | [], row, done, m, i, h => by
    rw [visitsOfList, collectList, ← h, setRow_row]
    rfl
  | p :: rest, row, done, m, i, h => by
    have hp : m.part? (.child row done.length) = some p := by
      rw [part?, h]
      simp
    have hlen : done.length + 1 = (done ++ [(collect target p i).1]).length := by simp
    rw [visitsOfList, runVisits_append, runVisits_below hp, collect_eq_runVisits target p i, hlen,
      collectList_eq_runVisits target rest row (done ++ [(collect target p i).1])]
    · rw [setPart, setRow_setRow, collectList, List.append_assoc, List.singleton_append]
    · rw [setPart, row_setRow, h]
      simp

end

/-! ## Visits of what is rendered -/

/-- The models whose names do not come before, neither in the list nor in `seen`, with their numbers. -/
def firsts (seen : List String) (index : Nat) : List Model → List (Nat × Model)
  | [] => []
  | m :: rest =>
    if seen.contains m.name then firsts seen (index + 1) rest
    else (index, m) :: firsts (m.name :: seen) (index + 1) rest

/-- The names in `seen` and in a list. -/
def seenWith (seen : List String) : List Model → List String
  | [] => seen
  | m :: rest => if seen.contains m.name then seenWith seen rest else seenWith (m.name :: seen) rest

/-- The visits of the properties whose names are not declared before. -/
def visitsOfNew (declared : List String) (l : List Model) : List Visit :=
  (firsts declared 0 l).flatMap fun entry =>
    (visitsOf entry.2).map (.below (.property entry.1))

/-- The visits of branches, from number `index` on: of the parent its name. -/
def visitsOfBranches (parent : Option Nat) (declared : List String) (index : Nat) :
    List Model → List Visit
  | [] => []
  | branch :: rest =>
    if parent = some index then
      .name [.branch index] :: visitsOfBranches parent declared (index + 1) rest
    else
      (visitsOfNew declared branch.properties).map (.below (.branch index)) ++
        visitsOfBranches parent (seenWith declared branch.properties) (index + 1) rest

/-- The visits of a model but not of its branches. -/
def visitsOfOwn (m : Model) : List Visit :=
  (visitsOfOption m.items).map (.below .items) ++
    (visitsOfOption m.additionalItems).map (.below .additionalItems) ++
    visitsOfList m.properties .properties 0 ++
    (visitsOfOption m.additionalProperties).map (.below .values) ++ [.whole []]

/-- The visits of a rendered model. -/
def visitsOfRendered (m : Model) : List Visit :=
  visitsOfOwn m ++ visitsOfBranches m.parentBranch (m.properties.map (·.name)) 0 m.allOf

theorem own_eq_runVisits (target : String) (m : Model) (i : Imports) :
    runVisits target (visitsOfOwn m) (m, i) =
      ((collect target { m with allOf := [] } i).1.setRow m.allOf .branches,
        (collect target { m with allOf := [] } i).2) := by
  obtain ⟨facts, items, extraItems, properties, allOf, value⟩ := m
  have hprops := collectList_eq_runVisits target properties .properties []
  simp only [List.length_nil, List.nil_append] at hprops
  simp only [visitsOfOwn, runVisits_append]
  rw [collectOption_eq_runVisits target items, collectOption_eq_runVisits target extraItems, hprops,
    collectOption_eq_runVisits target value, runVisits_whole, writeType, collect]
  · simp only [setPart, setRow, collectList]
  all_goals rfl

theorem collectNew_declared (target : String) (l : List Model) : ∀ declared i,
    (collectNew target declared l i).2.1 = seenWith declared l := by
  induction l with
  | nil => exact fun _ _ => rfl
  | cons m rest ih =>
    intro declared i
    rw [collectNew, seenWith]
    split
    · exact ih declared i
    · exact ih _ _

theorem collectNew_eq_runVisits (target : String) (l : List Model) : ∀ (declared : List String)
    (done : List Model) (m : Model) (i : Imports), m.row .properties = done ++ l →
    runVisits target ((firsts declared done.length l).flatMap fun entry =>
        (visitsOf entry.2).map (.below (.property entry.1))) (m, i) =
      (m.setRow (done ++ (collectNew target declared l i).1) .properties,
        (collectNew target declared l i).2.2) := by
  induction l with
  | nil =>
    intro declared done m i h
    rw [firsts, collectNew, ← h, setRow_row]
    rfl
  | cons p rest ih =>
    intro declared done m i h
    rw [firsts, collectNew]
    split
    · have hlen : done.length + 1 = (done ++ [p]).length := by simp
      rw [hlen, ih declared (done ++ [p]) m i (by simp [h]), List.append_assoc,
        List.singleton_append]
    · have hp : m.part? (.property done.length) = some p := by
        rw [part?, h]
        simp
      -- the induction is on the rest of the row: what is done stands before it
      have hlen : done.length + 1 = (done ++ [(collect target p i).1]).length := by simp
      -- the visits of this property come first, and all lie below its place
      rw [List.flatMap_cons, runVisits_append, runVisits_below hp, collect_eq_runVisits, hlen,
        ih (p.name :: declared) (done ++ [(collect target p i).1])]
      · rw [setPart, setRow_setRow, List.append_assoc, List.singleton_append]
      · rw [setPart, row_setRow, h]
        simp

theorem collectBranches_eq_runVisits (target : String) (parent : Option Nat) (l : List Model) :
    ∀ (declared : List String) (done : List Model) (m : Model) (i : Imports),
    m.row .branches = done ++ l →
    runVisits target (visitsOfBranches parent declared done.length l) (m, i) =
      (m.setRow (done ++ (collectBranches target parent declared done.length l i).1) .branches,
        (collectBranches target parent declared done.length l i).2) := by
  induction l with
  | nil =>
    intro declared done m i h
    rw [visitsOfBranches, collectBranches, ← h, setRow_row]
    rfl
  | cons branch rest ih =>
    intro declared done m i h
    have hb : m.part? (.branch done.length) = some branch := by
      rw [part?, h]
      simp
    -- once a branch is visited, the rest is visited in a model that has it as it became
    have hnext : ∀ (b : Model) declared i,
        runVisits target (visitsOfBranches parent declared (done.length + 1) rest)
          (m.setPart (some b) (.branch done.length), i) =
        (m.setRow (done ++
            b :: (collectBranches target parent declared (done.length + 1) rest i).1) .branches,
          (collectBranches target parent declared (done.length + 1) rest i).2) := by
      intro b declared i
      have hlen : done.length + 1 = (done ++ [b]).length := by simp
      rw [hlen, ih declared (done ++ [b])]
      · rw [setPart, setRow_setRow, List.append_assoc, List.singleton_append]
      · rw [setPart, row_setRow, h]
        simp
    rw [visitsOfBranches, collectBranches]
    split
    · have hname : Visit.run target (.name [.branch done.length]) (m, i) =
          (m.setPart (some (writeName target branch i).1) (.branch done.length),
            (writeName target branch i).2) := by
        simp only [Visit.run, atPosition, hb]
      rw [runVisits, List.foldl_cons, hname]
      exact hnext _ _ _
    · have hnew := collectNew_eq_runVisits target branch.properties declared [] branch i rfl
      rw [runVisits_append, runVisits_below hb, visitsOfNew]
      simp only [List.length_nil, List.nil_append] at hnew
      rw [hnew, hnext, ← collectNew_declared target branch.properties declared i]
      rfl

theorem collectList_names (target : String) (l : List Model) :
    ∀ i, (collectList target l i).1.map (·.name) = l.map (·.name) := by
  induction l with
  | nil => exact fun _ => rfl
  | cons m rest ih =>
    intro i
    rw [collectList, List.map_cons, List.map_cons, ih, (collect_written target m i).name]

/-- A rendered model is collected without its branches, then what is spelled of these. -/
theorem collectRendered_eq (target : String) (m : Model) (i : Imports) :
    collectRendered target m i =
      ((collect target { m with allOf := [] } i).1.setRow
          (collectBranches target m.parentBranch (m.properties.map (·.name)) 0 m.allOf
            (collect target { m with allOf := [] } i).2).1 .branches,
        (collectBranches target m.parentBranch (m.properties.map (·.name)) 0 m.allOf
          (collect target { m with allOf := [] } i).2).2) := by
  have hnames : (collect target { m with allOf := [] } i).1.properties.map (·.name) =
      m.properties.map (·.name) := by
    rw [collect]
    exact collectList_names target m.properties _
  rw [collectRendered]
  dsimp only
  rw [hnames]
  rfl

/-- **Collecting what a rendered model spells out is visiting.** -/
theorem collectRendered_eq_runVisits (target : String) (m : Model) (i : Imports) :
    runVisits target (visitsOfRendered m) (m, i) = collectRendered target m i := by
  have hbranches := collectBranches_eq_runVisits target m.parentBranch m.allOf
    (m.properties.map (·.name)) []
  simp only [List.length_nil, List.nil_append] at hbranches
  rw [visitsOfRendered, runVisits_append, own_eq_runVisits, hbranches _ _ (row_setRow _ _ _),
    setRow_setRow, collectRendered_eq]

end KclModels.Imports
