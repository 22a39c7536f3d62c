import KclModels.Proofs.Imports.Rendered
import KclModels.Proofs.Registry.Growth
import KclModels.Proofs.Text.Cut
import KclModels.Text.AsciiTable

/-!
# Names of packages

However models are collected one after the other, no name is given to two import paths. But a path
does not tell the root that was left out of it, so it may be that of two packages: one of the root of
the file, and one that is called as the other is without the root. These two share a name, and no
others do.
-/

namespace KclModels.Imports

open Model

variable {target package path name : String} {stmt stmt' : Import} {i j : Imports}

/-! ## One name for each path -/

/-- Each import has the name that is noted for its path. -/
def Named (i : Imports) : Prop :=
  ∀ path stmt, i.byPath.lookup path = some stmt → i.byName.lookup stmt.asName = some path

theorem named_empty : ({} : Imports).Named := fun _ _ h => absurd h (by simp)

/-- The names that cannot be given out are the reserved words and those that were given out. -/
theorem mem_of_not_isFree (h : (!i.isFree name) = true) :
    name ∈ "" :: Naming.reservedWords ++ Assoc.keys i.byName := by
  rw [List.cons_append, List.mem_cons, List.mem_append]
  rw [isFree, Bool.not_and, Bool.not_and, Bool.or_eq_true, Bool.or_eq_true, Bool.not_not,
    Bool.not_not, Bool.not_not] at h
  rcases h with (h | h) | h
  · exact Or.inl (String.isEmpty_iff.mp h)
  · exact Or.inr (Or.inl (List.contains_iff_mem.mp h))
  · exact Or.inr (Or.inr (Assoc.has_iff_mem_keys.mp h))

theorem isFree_mangledName (i : Imports) (segments : List String) :
    i.isFree (i.mangledName segments) = true := by
  have hlen : ("" :: Naming.reservedWords ++ Assoc.keys i.byName).length ≤
      i.byName.length + Naming.reservedWords.length + 1 := by
    rw [List.cons_append, List.length_cons, List.length_append, Assoc.keys, List.length_map]
    omega
  have hunused : (!i.isFree (i.mangledName segments)) = false :=
    freshName_unused (fun _ => mem_of_not_isFree) hlen _
  rwa [Bool.not_eq_false'] at hunused

section

variable {tr : Text.Transliteration}

/-- **The name that is picked is free.** -/
theorem isFree_pickName [Text.Transliteration] (i : Imports) (path : String) :
    i.isFree (i.pickName path).1 = true := by
  unfold pickName
  dsimp only
  split
  · rename_i name hname
    exact List.find?_some hname
  · exact isFree_mangledName i _

theorem lookup_eq_none_of_isFree (h : i.isFree name = true) : i.byName.lookup name = none := by
  have hfree := (Bool.and_eq_true_iff.mp h).2
  rw [Bool.not_eq_true', Assoc.has, Option.isSome_eq_false_iff, Option.isNone_iff_eq_none] at hfree
  exact hfree

theorem Named.nameFor [Text.Transliteration] (h : i.Named) (target package : String) :
    (i.nameFor target package).2.Named := by
  unfold Imports.nameFor
  dsimp only
  split
  · exact h
  · intro path stmt hstmt
    have hfree := lookup_eq_none_of_isFree (isFree_pickName i (importPath package target))
    rw [Assoc.lookup_putSorted] at hstmt ⊢
    split at hstmt
    · rename_i hpath
      obtain rfl := Option.some.inj hstmt
      rw [if_pos rfl, hpath]
    · have hnoted := h path stmt hstmt
      rw [if_neg ?_, hnoted]
      intro hname
      rw [hname, hfree] at hnoted
      exact absurd hnoted (by simp)

theorem Named.qualify (h : i.Named) (target : String) (t : TypeInfo) :
    (qualify target t i).2.Named := by
  unfold Imports.qualify
  split
  · exact h
  · exact h.nameFor target t.package

/-! ## What visits keep -/

variable {P : Imports → Prop}

theorem atPosition_keeps (write : Model → Imports → Model × Imports)
    (hwrite : ∀ m i, P i → P (write m i).2) (p : Position) :
    ∀ m i, P i → P (atPosition write p m i).2 := by
  induction p with
  | nil => exact hwrite
  | cons e rest ih =>
    intro m i h
    rw [atPosition]
    split
    · exact h
    · exact ih _ i h

/-- **What each type that is qualified keeps, a row of visits keeps.** -/
theorem runVisits_keeps (hP : ∀ t i, P i → P (qualify target t i).2) (visits : List Visit) :
    ∀ s : Model × Imports, P s.2 → P (runVisits target visits s).2 := by
  induction visits with
  | nil => exact fun _ h => h
  | cons visit rest ih =>
    intro s h
    have hvisit : P (visit.run target s).2 := by
      cases visit with
      | whole p =>
        refine atPosition_keeps (writeType target) (fun m i h => ?_) p s.1 s.2 h
        rw [writeType_eq]
        exact hP _ i h
      | name p =>
        refine atPosition_keeps (writeName target) (fun m i h => ?_) p s.1 s.2 h
        rw [writeName_eq]
        exact hP _ i h
    exact ih _ hvisit

/-! ## Calls -/

/-- What the imports of a file are collected from: a whole model, or what a rendered one spells. -/
inductive Call
  | whole (model : Model)
  | rendered (model : Model)

namespace Call

def model : Call → Model
  | whole model => model
  | rendered model => model

/-- The visits of a call. -/
def visits : Call → List Visit
  | whole model => visitsOf model
  | rendered model => visitsOfRendered model

/-- What a call makes of its model and of the imports. -/
def run [Text.Transliteration] (target : String) : Call → Imports → Model × Imports
  | whole model, i => collect target model i
  | rendered model, i => collectRendered target model i

end Call

/-- Calls one after the other. -/
def runCalls [Text.Transliteration] (target : String) : List Call → Imports → List Model × Imports
  | [], i => ([], i)
  | call :: rest, i =>
    let (m, i) := call.run target i
    let (rest, i) := runCalls target rest i
    (m :: rest, i)

variable {call : Call} {calls : List Call} {n : Nat} {q : Position} {b b' a a' m' : Model}

theorem run_eq_runVisits (target : String) (call : Call) (i : Imports) :
    call.run target i = runVisits target call.visits (call.model, i) := by
  cases call with
  | whole m => exact (collect_eq_runVisits target m i).symm
  | rendered m => exact (collectRendered_eq_runVisits target m i).symm

theorem call_later (target : String) (call : Call) (i : Imports) :
    Later i (call.run target i).2 := by
  rw [run_eq_runVisits]
  exact runVisits_later target call.visits (call.model, i)

theorem call_named (target : String) (call : Call) (h : i.Named) :
    (call.run target i).2.Named := by
  rw [run_eq_runVisits]
  exact runVisits_keeps (fun t _ h => h.qualify target t) call.visits (call.model, i) h

theorem runCalls_later (target : String) (calls : List Call) : ∀ i,
    Later i (runCalls target calls i).2 := by
  induction calls with
  | nil => exact Later.refl
  | cons call rest ih => exact fun i => (call_later target call i).trans (ih _)

theorem runCalls_named (target : String) (calls : List Call) : ∀ i, i.Named →
    (runCalls target calls i).2.Named := by
  induction calls with
  | nil => exact fun _ h => h
  | cons call rest ih => exact fun i h => ih _ (call_named target call h)

/-- The imports that some calls leave. -/
def importsOf [Text.Transliteration] (target : String) (calls : List Call) : Imports :=
  (runCalls target calls {}).2

theorem importsOf_keyed [Text.Transliteration] (target : String) (calls : List Call) :
    (importsOf target calls).Keyed :=
  (runCalls_later target calls {}).keyed keyed_empty

/-- **No name is given to two paths.** -/
theorem importsOf_asName_inj (target : String) (calls : List Call)
    (h : stmt ∈ (importsOf target calls).statements)
    (h' : stmt' ∈ (importsOf target calls).statements) (hname : stmt.asName = stmt'.asName) :
    stmt = stmt' := by
  have hkeyed := importsOf_keyed target calls
  have hnamed : (importsOf target calls).Named := runCalls_named target calls {} named_empty
  have hnoted : ∀ stmt ∈ (importsOf target calls).statements,
      (importsOf target calls).byName.lookup stmt.asName = some stmt.path := by
    intro stmt hstmt
    obtain ⟨⟨path, stmt⟩, hentry, rfl⟩ := List.mem_map.mp hstmt
    rw [hkeyed.path _ hentry]
    exact hnamed _ _ (Assoc.lookup_of_mem hkeyed.sorted.nodup hentry)
  have hpath : stmt.path = stmt'.path := by
    have heq := hnoted stmt h
    rw [hname, hnoted stmt' h'] at heq
    exact (Option.some.inj heq).symm
  obtain ⟨⟨path, stmt⟩, hentry, rfl⟩ := List.mem_map.mp h
  have hlookup := Assoc.lookup_of_mem hkeyed.sorted.nodup hentry
  have hown : stmt.path = path := hkeyed.path _ hentry
  exact ((hkeyed.only hlookup).2.2 stmt' h' (hpath.symm.trans hown)).symm

/-! ## Visited nodes -/

theorem whole_of_mem_below {visits : List Visit} {visit : Visit} {e : Edge}
    (h : ∀ v ∈ visits, ∃ q, v = .whole q) (hvisit : visit ∈ visits.map (.below e)) :
    ∃ q, visit = .whole q := by
  obtain ⟨v, hv, rfl⟩ := List.mem_map.mp hvisit
  obtain ⟨q, rfl⟩ := h v hv
  exact ⟨e :: q, rfl⟩

mutual

/-- What is visited of a collected model is visited as a whole. -/
theorem whole_of_mem_visitsOf : ∀ (m : Model), ∀ visit ∈ visitsOf m, ∃ q, visit = .whole q
  | ⟨_, items, extraItems, properties, allOf, value⟩, visit, h => by
    have hitems := whole_of_mem_visitsOfOption items
    have hextra := whole_of_mem_visitsOfOption extraItems
    have hprops := whole_of_mem_visitsOfList properties .properties 0
    have hvalue := whole_of_mem_visitsOfOption value
    have hall := whole_of_mem_visitsOfList allOf .branches 0
    simp only [visitsOf, List.mem_append, List.mem_singleton] at h
    rcases h with ((((h | h) | h) | h) | h) | h
    · exact whole_of_mem_below hitems h
    · exact whole_of_mem_below hextra h
    · exact hprops visit h
    · exact whole_of_mem_below hvalue h
    · exact hall visit h
    · exact ⟨[], h⟩

theorem whole_of_mem_visitsOfOption : ∀ (o : Option Model),
    ∀ visit ∈ visitsOfOption o, ∃ q, visit = .whole q
  | none, _, h => absurd h List.not_mem_nil
  | some m, visit, h => whole_of_mem_visitsOf m visit h

theorem whole_of_mem_visitsOfList : ∀ (l : List Model) (row : Row) (index : Nat),
    ∀ visit ∈ visitsOfList l row index, ∃ q, visit = .whole q
  | [], _, _, _, h => absurd h List.not_mem_nil
  | m :: rest, row, index, visit, h => by
    have hm := whole_of_mem_visitsOf m
    have hrest := whole_of_mem_visitsOfList rest row (index + 1)
    rcases List.mem_append.mp h with h | h
    · exact whole_of_mem_below hm h
    · exact hrest visit h

end

theorem whole_of_mem_visitsOfNew {declared : List String} {l : List Model} {visit : Visit}
    (h : visit ∈ visitsOfNew declared l) : ∃ q, visit = .whole q := by
  obtain ⟨entry, -, hvisit⟩ := List.mem_flatMap.mp h
  exact whole_of_mem_below (whole_of_mem_visitsOf entry.2) hvisit

theorem parent_of_mem_visitsOfBranches {parent : Option Nat} (l : List Model) :
    ∀ declared index, .name q ∈ visitsOfBranches parent declared index l →
      ∃ k, parent = some k ∧ q = [.branch k] := by
  induction l with
  | nil => exact fun _ _ h => absurd h List.not_mem_nil
  | cons branch rest ih =>
    intro declared index h
    rw [visitsOfBranches] at h
    split at h
    · rename_i hparent
      rcases List.mem_cons.mp h with h | h
      · exact ⟨index, hparent, Visit.name.inj h⟩
      · exact ih _ _ h
    · rcases List.mem_append.mp h with h | h
      · obtain ⟨q', hq'⟩ := whole_of_mem_below (fun _ => whole_of_mem_visitsOfNew) h
        exact absurd hq' (by simp)
      · exact ih _ _ h

/-- What is visited for its name only is the parent. -/
theorem parent_of_mem_visitsOfRendered {m : Model} (h : .name q ∈ visitsOfRendered m) :
    ∃ k, m.parentBranch = some k ∧ q = [.branch k] := by
  rcases List.mem_append.mp h with h | h
  · rw [visitsOfOwn_eq] at h
    obtain ⟨q', hq'⟩ := whole_of_mem_visitsOf _ _ h
    exact absurd hq' (by simp)
  · exact parent_of_mem_visitsOfBranches m.allOf _ _ h

/-- A visited model is qualified with a name of the file's imports. -/
theorem run_qualified (hkeyed : j.Keyed) (hlater : Later (call.run target i).2 j)
    (hq : q ∈ positions call.visits) : ∃ b b', call.model.at? q = some b ∧
      (call.run target i).1.at? q = some b' ∧ Qualified target j.statements b.type b'.type := by
  obtain ⟨visit, hvisit, rfl⟩ := List.mem_map.mp hq
  cases call with
  | whole m =>
    obtain ⟨q, rfl⟩ := whole_of_mem_visitsOf m visit hvisit
    obtain ⟨b, hb⟩ := Option.isSome_iff_exists.mp ((mem_visitsOf q m).mp hvisit)
    obtain ⟨b', hb', hwritten⟩ := collect_at hkeyed hb hlater
    exact ⟨b, b', hb, hb', hwritten.qualified⟩
  | rendered m =>
    cases visit with
    | whole q =>
      obtain ⟨b, b', hb, hb', hwritten⟩ := collectRendered_at hkeyed hlater hvisit
      exact ⟨b, b', hb, hb', hwritten.qualified⟩
    | name q =>
      obtain ⟨k, hparent, rfl⟩ := parent_of_mem_visitsOfRendered hvisit
      have hout := collectRendered_spelledOut hkeyed hlater
      obtain ⟨-, b, b', hb, hb', hname⟩ := hout.parent k
        ((collectRendered_alike target m i).parentBranch ▸ hparent)
      exact ⟨b, b', (at?_single m _).trans hb, (at?_single _ _).trans hb', hname.qualified⟩

/-- The model `a'` is what became of the model `a`, to which one of the calls paid a visit. -/
structure Visited [Text.Transliteration] (target : String) (calls : List Call) (n : Nat)
    (q : Position) (a a' : Model) : Prop where
  visit : ∃ call, calls[n]? = some call ∧ q ∈ positions call.visits ∧ call.model.at? q = some a
  outcome : ∃ m', (runCalls target calls {}).1[n]? = some m' ∧ m'.at? q = some a'

theorem runCalls_getElem? (target : String) (calls : List Call) : ∀ (n : Nat) (i : Imports),
    calls[n]? = some call → ∃ k, (runCalls target calls i).1[n]? = some (call.run target k).1 ∧
      Later (call.run target k).2 (runCalls target calls i).2 := by
  induction calls with
  | nil => exact fun _ _ h => absurd h (by simp)
  | cons first rest ih =>
    intro n i h
    cases n with
    | zero =>
      obtain rfl : first = call := Option.some.inj h
      exact ⟨i, rfl, runCalls_later target rest _⟩
    | succ n => exact ih n (first.run target i).2 h

theorem Visited.qualified (h : Visited target calls n q a a') :
    Qualified target (importsOf target calls).statements a.type a'.type := by
  obtain ⟨call, hcall, hq, ha⟩ := h.visit
  obtain ⟨m', hm', ha'⟩ := h.outcome
  obtain ⟨k, hk, hlater⟩ := runCalls_getElem? target calls n {} hcall
  obtain ⟨b, b', hb, hb', hqualified⟩ :=
    run_qualified (importsOf_keyed target calls) hlater hq
  obtain rfl : m' = (call.run target k).1 := Option.some.inj (hm'.symm.trans hk)
  obtain rfl : a = b := Option.some.inj (ha.symm.trans hb)
  obtain rfl : a' = b' := Option.some.inj (ha'.symm.trans hb')
  exact hqualified

/-! ## Packages with one path -/

/--
A package takes the path of another one away: it is called as that one is with the root of the file
in front, and the other is not of this root.
-/
def Hides (target package other : String) : Prop :=
  ∃ root rest, Text.cutFirst? '.' target = some (root, rest) ∧ package = root ++ "." ++ other ∧
    importPath other target = other

/-- Either nothing is left out of the path, or the root that the package shares with the file. -/
theorem importPath_cases (package target : String) : importPath package target = package ∨
    ∃ root rest, Text.cutFirst? '.' target = some (root, rest) ∧
      package = root ++ "." ++ importPath package target := by
  unfold importPath
  split
  · rename_i root rest targetRoot targetRest hpackage htarget
    split
    · rename_i hroot
      exact Or.inr ⟨targetRoot, targetRest, htarget,
        hroot ▸ (Text.eq_of_cutFirst? hpackage).1⟩
    · exact Or.inl rfl
  · exact Or.inl rfl

theorem importPath_of_root {root rest : String} (h : Text.cutFirst? '.' target = some (root, rest))
    (package : String) : importPath (root ++ "." ++ package) target = package := by
  have hcut := Text.cutFirst?_append (t := package) (Text.eq_of_cutFirst? h).2
  rw [show String.singleton '.' = "." from rfl] at hcut
  rw [importPath, hcut, h]
  exact if_pos rfl

/-- **Packages have one path** only if they are the same or one hides the other. -/
theorem importPath_eq_iff (package other target : String) :
    importPath package target = importPath other target ↔
      package = other ∨ Hides target package other ∨ Hides target other package := by
  constructor
  · intro h
    rcases importPath_cases package target with hp | ⟨root, rest, hroot, hp⟩
    · rcases importPath_cases other target with ho | ⟨root, rest, hroot, ho⟩
      · exact Or.inl (by rw [← hp, h, ho])
      · rw [← h, hp] at ho
        exact Or.inr (Or.inr ⟨root, rest, hroot, ho, hp⟩)
    · rcases importPath_cases other target with ho | ⟨root', rest', hroot', ho⟩
      · rw [h, ho] at hp
        exact Or.inr (Or.inl ⟨root, rest, hroot, hp, ho⟩)
      · obtain ⟨rfl, rfl⟩ := Prod.mk.inj (Option.some.inj (hroot.symm.trans hroot'))
        exact Or.inl (by rw [hp, h, ← ho])
  · rintro (rfl | ⟨root, rest, hroot, rfl, hother⟩ | ⟨root, rest, hroot, rfl, hother⟩)
    · rfl
    · rw [importPath_of_root hroot, hother]
    · rw [importPath_of_root hroot, hother]

/--
**Two packages are written with one name only if one hides the other.** Whatever is collected, two
visited types of other packages are written behind names of the imports of their paths, and the
names are the same exactly for the same package and for packages of which one hides the other.
-/
theorem names_eq_iff (calls : List Call) {n n' : Nat} {q q' : Position}
    (ha : Visited target calls n q a a') (hb : Visited target calls n' q' b b')
    (hsome : a.type.package ≠ "") (hother : a.type.package ≠ target)
    (hsome' : b.type.package ≠ "") (hother' : b.type.package ≠ target) :
    ∃ x ∈ (importsOf target calls).statements, ∃ y ∈ (importsOf target calls).statements,
      a'.type.kclType = x.asName ++ "." ++ a.type.kclType ∧
      b'.type.kclType = y.asName ++ "." ++ b.type.kclType ∧
      (x.asName = y.asName ↔ a.type.package = b.type.package ∨
        Hides target a.type.package b.type.package ∨
        Hides target b.type.package a.type.package) := by
  obtain ⟨x, hx, hxpath, -, hxtype⟩ := ha.qualified hsome hother
  obtain ⟨y, hy, hypath, hyonly, hytype⟩ := hb.qualified hsome' hother'
  refine ⟨x, hx, y, hy, hxtype, hytype, ?_⟩
  rw [← importPath_eq_iff, ← hxpath, ← hypath]
  constructor
  · intro hname
    rw [importsOf_asName_inj target calls hx hy hname]
  · intro hpath
    rw [hyonly x hx hpath]

end

/-- A type `Pod` that another package declares. -/
def podOf (package : String) : Model := { type := { kclType := "Pod", package } }

/-- Two visits from a file of the package `models.apps`. -/
def podsOf (package package' : String) : List Call :=
  [.whole (podOf package), .rendered (podOf package')]

/-- Packages of one last segment are told apart by the segment before it. -/
theorem clusterPods_names : ∃ a' b',
    Visited "models.apps" (podsOf "models.core" "k8s.core") 0 [] (podOf "models.core") a' ∧
    Visited "models.apps" (podsOf "models.core" "k8s.core") 1 [] (podOf "k8s.core") b' ∧
    a'.type.kclType = "core.Pod" ∧ b'.type.kclType = "k8sCore.Pod" ∧
    ∃ x ∈ (importsOf "models.apps" (podsOf "models.core" "k8s.core")).statements,
    ∃ y ∈ (importsOf "models.apps" (podsOf "models.core" "k8s.core")).statements,
      a'.type.kclType = x.asName ++ "." ++ "Pod" ∧ b'.type.kclType = y.asName ++ "." ++ "Pod" ∧
      (x.asName = y.asName ↔ "models.core" = "k8s.core" ∨
        Hides "models.apps" "models.core" "k8s.core" ∨
        Hides "models.apps" "k8s.core" "models.core") := by
  have ha : Visited "models.apps" (podsOf "models.core" "k8s.core") 0 [] (podOf "models.core") _ :=
    ⟨⟨_, rfl, by decide, rfl⟩, ⟨_, rfl, rfl⟩⟩
  have hb : Visited "models.apps" (podsOf "models.core" "k8s.core") 1 [] (podOf "k8s.core") _ :=
    ⟨⟨_, rfl, by decide, rfl⟩, ⟨_, rfl, rfl⟩⟩
  exact ⟨_, _, ha, hb, by decide +kernel, by decide +kernel,
    names_eq_iff _ ha hb (by decide) (by decide) (by decide) (by decide)⟩

/-- Two packages that share a name: one is called as the other is with the root of the file. -/
theorem namesakePods_share : ∃ a' b',
    Visited "models.apps" (podsOf "models.core" "core") 0 [] (podOf "models.core") a' ∧
    Visited "models.apps" (podsOf "models.core" "core") 1 [] (podOf "core") b' ∧
    (podOf "models.core").type.package ≠ (podOf "core").type.package ∧
    a'.type.packageAlias = "core" ∧ a'.type.kclType = "core.Pod" ∧
    b'.type.packageAlias = "core" ∧ b'.type.kclType = "core.Pod" ∧
    (importsOf "models.apps" (podsOf "models.core" "core")).statements.map (·.path) = ["core"] := by
  refine ⟨_, _, ⟨⟨_, rfl, by decide, rfl⟩, ⟨_, rfl, rfl⟩⟩, ⟨⟨_, rfl, by decide, rfl⟩, ⟨_, rfl, rfl⟩⟩,
    by decide, ?_⟩
  decide +kernel

end KclModels.Imports
