import KclModels.Proofs.Imports.Aliases
import KclModels.Proofs.Naming.Stem
import KclModels.Text.AsciiTable

/-!
# The table of names

What the imports of a file become depends on nothing but the packages that are met, in their order:
a package is met wherever a type of it is visited. At any time the imports are in order, each path
once, and each path has a name of its own. A path gets its name when it is met first, and keeps it:
the first free name of those that its segments suggest, else the first free one of a numbered row,
and only this is warned of.
-/

namespace KclModels

namespace Naming

variable {tr : Text.Transliteration}

/-! ## Identifiers put together -/

variable {a b : String}

theorem isIdentifier_append (ha : isIdentifier a = true)
    (hb : ∀ c ∈ b.toList, isIdentChar c = true) : isIdentifier (a ++ b) = true := by
  obtain ⟨hchars, c, cs, hcons, hdigit⟩ := isIdentifier_iff.mp ha
  rw [isIdentifier_iff, String.toList_append]
  refine ⟨fun d hd => ?_, c, cs ++ b.toList, by rw [hcons, List.cons_append], hdigit⟩
  exact (List.mem_append.mp hd).elim (hchars d) (hb d)

theorem capitalize_chars (hb : ∀ c ∈ b.toList, isIdentChar c = true) :
    ∀ c ∈ (Text.capitalize b).toList, isIdentChar c = true := by
  unfold Text.capitalize
  cases hcons : b.toList with
  | nil => exact fun c hc => absurd hc List.not_mem_nil
  | cons first rest =>
    rw [hcons] at hb
    obtain ⟨d, hd, hident, -⟩ := capitals_of_isIdentChar (hb first List.mem_cons_self)
    dsimp only
    rw [hd, String.toList_ofList, List.singleton_append]
    exact List.forall_mem_cons.mpr ⟨hident, fun c hc => hb c (List.mem_cons_of_mem _ hc)⟩

theorem isIdentifier_capitalize (hb : isIdentifier b = true) :
    isIdentifier (Text.capitalize b) = true := by
  obtain ⟨hchars, first, rest, hcons, hdigit⟩ := isIdentifier_iff.mp hb
  refine isIdentifier_iff.mpr ⟨capitalize_chars hchars, ?_⟩
  obtain ⟨d, hd, -, hsame, -⟩ := capitals_of_isIdentChar (hchars first (hcons ▸ List.mem_cons_self))
  refine ⟨d, rest, ?_, hsame.trans hdigit⟩
  rw [Text.capitalize, hcons]
  dsimp only
  rw [hd, String.toList_ofList, List.singleton_append]

/-- What a segment is named by is an identifier, or nothing. -/
theorem sanitize_identifier (s : String) : sanitize s = "" ∨ isIdentifier (sanitize s) = true := by
  cases hcons : (sanitize s).toList with
  | nil => exact Or.inl (String.toList_eq_nil_iff.mp hcons)
  | cons c cs =>
    refine Or.inr (isIdentifier_iff.mpr ⟨fun d => isIdentChar_of_sanitize, c, cs, hcons, ?_⟩)
    -- a first digit would have an underscore put before it
    unfold sanitize at hcons
    dsimp only at hcons
    split at hcons
    · split at hcons
      · rw [String.toList_append] at hcons
        obtain ⟨rfl, -⟩ := List.cons.inj hcons
        decide
      · rename_i first rest heq hdigit
        rw [heq] at hcons
        obtain ⟨rfl, -⟩ := List.cons.inj hcons
        simpa using hdigit
    · rename_i heq
      rw [heq] at hcons
      exact absurd hcons (by simp)

theorem numbered_identifier (ha : isIdentifier a = true) (n : Nat) :
    isIdentifier (numbered a n) = true := by
  unfold numbered
  split
  · exact ha
  · refine isIdentifier_append ha fun c hc => ?_
    rw [Nat.toString_eq_repr, Nat.toList_repr] at hc
    rw [isIdentChar, isWordChar, Nat.isDigit_of_mem_toDigits (by decide) (by decide) hc,
      Bool.or_true, Bool.true_or]

end Naming

namespace Imports

open Model

variable {target package path name : String} {packages : List String} {segments : List String}
variable {stmt : Import} {i j : Imports} {calls : List Call} {m m' : Model} {q : Position}

/-! ## Names that are picked -/

/-- A name with a parent in front of it. -/
def longer (name parent : String) : String :=
  if name.isEmpty then parent else parent ++ Text.capitalize name

/-- A name with one parent after the other in front of it. -/
def longerNames (name : String) : List String → List String
  | [] => []
  | parent :: rest => longer name parent :: longerNames (longer name parent) rest

/-- The segments of a path as they go into names. -/
def segmentsOf [Text.Transliteration] (path : String) : List String :=
  (Text.split '.' path).map Naming.sanitize

/--
The names that a path suggests: its last segment, then with the segments before that in front of it,
one by one.
-/
def suggestions [Text.Transliteration] (path : String) : List String :=
  longerNames "" (segmentsOf path).reverse

/-- What the row of names begins with that a path gets if nothing else is free. -/
def mangledBase [Text.Transliteration] (path : String) : String :=
  "kclMangled" ++ Text.capitalize ((segmentsOf path).getLast?.getD "")

/-- A name that no path has and that is no reserved word. -/
structure Free (i : Imports) (name : String) : Prop where
  nonempty : name ≠ ""
  unreserved : Naming.isReserved name = false
  unused : ∀ stmt ∈ i.statements, stmt.asName ≠ name

/--
How the name of a path is picked: the first free one of those that it suggests, else the first free
one of a row that does not end.
-/
inductive Picked [Text.Transliteration] (i : Imports) (path name : String) : Prop
  | suggested (before after : List String)
      (split : suggestions path = before ++ name :: after)
      (free : i.Free name) (first : ∀ other ∈ before, ¬ i.Free other)
  | mangled (n : Nat) (number : name = numbered (mangledBase path) n)
      (exhausted : ∀ other ∈ suggestions path, ¬ i.Free other)
      (free : i.Free name) (first : ∀ k < n, ¬ i.Free (numbered (mangledBase path) k))

/-- The names that are tried for segments get longer by one parent each. -/
theorem candidates_eq (segments : List String) :
    candidates segments = longerNames "" segments.reverse := by
  -- the last of the names so far is the one that the next parent goes in front of
  have hrow : ∀ (parents : List String) (name : String) (names : List String),
      (parents.foldl (fun (found : String × List String) parent =>
        (longer found.1 parent, found.2 ++ [longer found.1 parent])) (name, names)).2 =
          names ++ longerNames name parents := by
    intro parents
    induction parents with
    | nil => exact fun _ names => (List.append_nil names).symm
    | cons parent rest ih =>
      intro name names
      rw [List.foldl_cons, longerNames]
      exact (ih _ _).trans (List.append_assoc _ [_] _)
  unfold candidates
  cases segments.reverse with
  | nil => rfl
  | cons last parents => exact hrow parents last [last]

theorem longer_identifier {parent : String}
    (hname : name = "" ∨ Naming.isIdentifier name = true)
    (hparent : parent = "" ∨ Naming.isIdentifier parent = true) :
    longer name parent = "" ∨ Naming.isIdentifier (longer name parent) = true := by
  unfold longer
  split
  · exact hparent
  · rename_i hne
    have hident := hname.resolve_left fun hempty => hne (String.isEmpty_iff.mpr hempty)
    rcases hparent with rfl | hparent
    · rw [String.empty_append]
      exact Or.inr (Naming.isIdentifier_capitalize hident)
    · exact Or.inr (Naming.isIdentifier_append hparent
        (Naming.capitalize_chars (Naming.isIdentifier_iff.mp hident).1))

theorem longerNames_identifier {parents : List String}
    (hname : name = "" ∨ Naming.isIdentifier name = true)
    (h : ∀ s ∈ parents, s = "" ∨ Naming.isIdentifier s = true) :
    ∀ s ∈ longerNames name parents, s = "" ∨ Naming.isIdentifier s = true := by
  induction parents generalizing name with
  | nil => exact fun _ hs => absurd hs List.not_mem_nil
  | cons parent rest ih =>
    obtain ⟨hparent, hrest⟩ := List.forall_mem_cons.mp h
    have hnext := longer_identifier hname hparent
    exact List.forall_mem_cons.mpr ⟨hnext, ih hnext hrest⟩

section

variable {tr : Text.Transliteration}

theorem segmentsOf_identifier (path : String) :
    ∀ s ∈ segmentsOf path, s = "" ∨ Naming.isIdentifier s = true := by
  intro s hs
  obtain ⟨piece, -, rfl⟩ := List.mem_map.mp hs
  exact Naming.sanitize_identifier piece

theorem mangledBase_identifier (path : String) :
    Naming.isIdentifier (mangledBase path) = true := by
  refine Naming.isIdentifier_append (by decide) (Naming.capitalize_chars fun c hc => ?_)
  cases hlast : (segmentsOf path).getLast? with
  | none =>
    rw [hlast] at hc
    exact absurd hc (by simp)
  | some last =>
    rw [hlast, Option.getD_some] at hc
    rcases segmentsOf_identifier path last (List.mem_of_getLast? hlast) with rfl | hident
    · exact absurd hc (by simp)
    · exact (Naming.isIdentifier_iff.mp hident).1 c hc

theorem Picked.free (h : Picked i path name) : i.Free name := by
  cases h with
  | suggested _ _ _ free => exact free
  | mangled _ _ _ free => exact free

/-- **A name that is picked is an identifier.** -/
theorem Picked.identifier (h : Picked i path name) : Naming.isIdentifier name = true := by
  cases h with
  | suggested before after split free =>
    have hmem : name ∈ suggestions path := by
      rw [split]
      exact List.mem_append_right _ List.mem_cons_self
    refine (longerNames_identifier (Or.inl rfl) (fun s hs => ?_) name hmem).resolve_left
      free.nonempty
    exact segmentsOf_identifier path s (List.mem_reverse.mp hs)
  | mangled n number => exact number ▸ Naming.numbered_identifier (mangledBase_identifier path) n

/-! ## Imports at any time -/

/-- A statement whose name can be written, and is written if the path does not imply it. -/
structure Sound (stmt : Import) : Prop where
  identifier : Naming.isIdentifier stmt.asName = true
  unreserved : Naming.isReserved stmt.asName = false
  renamed : stmt.renamed = true ↔ stmt.asName ≠ Text.afterLast '.' stmt.path

/-- What holds of the imports at any time. -/
structure Consistent (i : Imports) : Prop where
  keyed : i.Keyed
  named : i.Named
  /-- A name that is noted is that of the import of its path. -/
  noted : ∀ name path, i.byName.lookup name = some path →
    ∃ stmt, i.byPath.lookup path = some stmt ∧ stmt.asName = name
  sound : ∀ stmt ∈ i.statements, Sound stmt
  /-- A warning is of an import and its name. -/
  warned : ∀ w ∈ i.warnings, ∃ path stmt, i.byPath.lookup path = some stmt ∧
    w = .aliasMangled path stmt.asName
  once : i.warnings.Nodup

theorem consistent_empty : ({} : Imports).Consistent where
  keyed := keyed_empty
  named := named_empty
  noted := fun _ _ h => absurd h (by simp)
  sound := fun _ h => absurd h List.not_mem_nil
  warned := fun _ h => absurd h List.not_mem_nil
  once := List.nodup_nil

theorem lookup_of_statement (hkeyed : i.Keyed) (h : stmt ∈ i.statements) :
    i.byPath.lookup stmt.path = some stmt := by
  obtain ⟨⟨path, stmt⟩, hentry, rfl⟩ := List.mem_map.mp h
  rw [hkeyed.path _ hentry]
  exact Assoc.lookup_of_mem hkeyed.sorted.nodup hentry

theorem statement_of_lookup (h : i.byPath.lookup path = some stmt) : stmt ∈ i.statements :=
  List.mem_map.mpr ⟨_, Assoc.mem_of_lookup h, rfl⟩

/-- The names that are given out are those of the imports. -/
theorem Consistent.isFree_iff (h : i.Consistent) : i.isFree name = true ↔ i.Free name := by
  have hnoted : i.byName.lookup name = none ↔ ∀ stmt ∈ i.statements, stmt.asName ≠ name := by
    rw [Option.eq_none_iff_forall_ne_some]
    constructor
    · rintro hnone stmt hstmt rfl
      exact hnone _ (h.named _ _ (lookup_of_statement h.keyed hstmt))
    · intro hnone path hpath
      obtain ⟨stmt, hstmt, hname⟩ := h.noted _ _ hpath
      exact hnone stmt (statement_of_lookup hstmt) hname
  rw [isFree, Bool.and_eq_true, Bool.and_eq_true, Bool.not_eq_true', Bool.not_eq_true',
    Bool.not_eq_true', Assoc.has, Option.isSome_eq_false_iff, Option.isNone_iff_eq_none, hnoted,
    ← Bool.not_eq_true, String.isEmpty_iff]
  constructor
  · rintro ⟨⟨hne, hres⟩, hun⟩
    exact ⟨hne, hres, hun⟩
  · exact fun hfree => ⟨⟨hfree.nonempty, hfree.unreserved⟩, hfree.unused⟩

theorem Keyed.paths (h : i.Keyed) : i.statements.map (·.path) = Assoc.keys i.byPath := by
  rw [statements, List.map_map]
  exact List.map_congr_left h.path

/-- No name is given to two paths. -/
theorem Consistent.distinct (h : i.Consistent) : (i.statements.map (·.asName)).Nodup := by
  have hnodup : i.statements.Nodup := by
    refine List.Nodup.of_map (·.path) ?_
    rw [h.keyed.paths]
    exact h.keyed.sorted.nodup
  refine hnodup.map_on fun stmt hstmt other hother hname => ?_
  have hlookup := lookup_of_statement h.keyed hstmt
  have hlookup' := lookup_of_statement h.keyed hother
  have hpath := h.named _ _ hlookup
  rw [hname, h.named _ _ hlookup'] at hpath
  rw [← Option.some.inj hpath, hlookup'] at hlookup
  exact (Option.some.inj hlookup).symm

/-- **The search for a name ends**, with a warning if nothing that was suggested is free. -/
theorem Consistent.pickName [Text.Transliteration] (h : i.Consistent) (path : String) :
    Picked i path (i.pickName path).1 ∧ (i.pickName path).2.Nodup ∧
      ∀ w, w ∈ (i.pickName path).2 ↔
        (∀ other ∈ suggestions path, ¬ i.Free other) ∧
          w = .aliasMangled path (i.pickName path).1 := by
  have hfree := isFree_pickName i path
  have htried : candidates ((Text.split '.' path).map Naming.sanitize) = suggestions path :=
    candidates_eq _
  unfold Imports.pickName at hfree ⊢
  dsimp only at hfree ⊢
  rw [htried] at hfree ⊢
  split
  · rename_i name hname
    obtain ⟨hfound, before, after, hsplit, hfirst⟩ := List.find?_eq_some_iff_append.mp hname
    refine ⟨.suggested before after hsplit (h.isFree_iff.mp hfound) fun other hother => ?_,
      List.nodup_nil, ?_⟩
    · rw [← h.isFree_iff]
      simpa using hfirst other hother
    · -- a suggestion is free, so there is nothing to warn of
      refine fun w => iff_of_false List.not_mem_nil fun hw => hw.1 name ?_ (h.isFree_iff.mp hfound)
      rw [hsplit]
      exact List.mem_append_right _ List.mem_cons_self
  · rename_i hnone
    rw [hnone] at hfree
    -- none is: names are made up until one is free
    have hexhausted : ∀ other ∈ suggestions path, ¬ i.Free other := by
      intro other hother
      rw [← h.isFree_iff]
      exact List.find?_eq_none.mp hnone other hother
    refine ⟨?_, List.nodup_singleton _, fun w => ?_⟩
    · obtain ⟨n, hn, hfirst⟩ := freshName_first (fun name => !i.isFree name)
        (i.byName.length + Naming.reservedWords.length + 1) (mangledBase path)
        (congrArg Bool.not hfree)
      refine .mangled n hn hexhausted (h.isFree_iff.mp hfree) fun k hk => ?_
      rw [← h.isFree_iff]
      simpa using hfirst k hk
    · rw [List.mem_singleton]
      exact (and_iff_right hexhausted).symm

/-- What a package changes that was met before: nothing. -/
theorem nameFor_known (h : i.byPath.lookup (importPath package target) = some stmt) :
    (i.nameFor target package).2 = i := by
  rw [nameFor]
  dsimp only
  rw [h]

/-- The import of a path under a name. -/
def importOf (path name : String) : Import :=
  { path, asName := name, renamed := name != Text.afterLast '.' path }

theorem importOf_asName (path name : String) : (importOf path name).asName = name := rfl

theorem nameFor_new (h : i.byPath.lookup (importPath package target) = none) :
    (i.nameFor target package).2 =
      { byPath := Assoc.putSorted i.byPath (importPath package target)
          (importOf (importPath package target) (i.pickName (importPath package target)).1)
        byName := Assoc.putSorted i.byName (i.pickName (importPath package target)).1
          (importPath package target)
        warnings := i.warnings ++ (i.pickName (importPath package target)).2 } := by
  rw [nameFor]
  dsimp only
  rw [h]
  rfl

theorem importOf_sound (h : Picked i path name) : Sound (importOf path name) where
  identifier := h.identifier
  unreserved := h.free.unreserved
  renamed := bne_iff_ne

/-- **A package that is met keeps the imports consistent.** -/
theorem Consistent.nameFor (h : i.Consistent) (target package : String) :
    (i.nameFor target package).2.Consistent := by
  have hkeyed := (nameFor_later i target package).keyed h.keyed
  have hnamed := h.named.nameFor target package
  cases hlookup : i.byPath.lookup (importPath package target) with
  | some stmt => rwa [nameFor_known hlookup]
  | none =>
    obtain ⟨hpicked, honce, hwarned⟩ := h.pickName (importPath package target)
    rw [nameFor_new hlookup] at hkeyed hnamed ⊢
    generalize importPath package target = path at *
    generalize hname : (i.pickName path).1 = name at *
    generalize (i.pickName path).2 = raised at *
    -- an import that was there has another path, and another name
    have hstays : ∀ {old : String} {stmt : Import}, i.byPath.lookup old = some stmt →
        (Assoc.putSorted i.byPath path (importOf path name)).lookup old = some stmt := by
      intro old stmt hold
      have hne : old ≠ path := by
        rintro rfl
        rw [hlookup] at hold
        exact absurd hold (by simp)
      rw [Assoc.lookup_putSorted, if_neg hne, hold]
    have hown : (Assoc.putSorted i.byPath path (importOf path name)).lookup path =
        some (importOf path name) := by
      rw [Assoc.lookup_putSorted, if_pos rfl]
    refine ⟨hkeyed, hnamed, fun given old hgiven => ?_, fun stmt hstmt => ?_, fun w hw => ?_, ?_⟩
    · rw [Assoc.lookup_putSorted] at hgiven
      split at hgiven
      · rename_i heq
        obtain rfl := Option.some.inj hgiven
        exact ⟨_, hown, heq.symm⟩
      · obtain ⟨stmt, hstmt, hgiven⟩ := h.noted _ _ hgiven
        exact ⟨stmt, hstays hstmt, hgiven⟩
    · obtain ⟨entry, hentry, rfl⟩ := List.mem_map.mp hstmt
      rcases Assoc.mem_putSorted hentry with rfl | hentry
      · exact importOf_sound hpicked
      · exact h.sound _ (List.mem_map.mpr ⟨entry, hentry, rfl⟩)
    · rcases List.mem_append.mp hw with hw | hw
      · obtain ⟨old, stmt, hstmt, rfl⟩ := h.warned w hw
        exact ⟨old, stmt, hstays hstmt, rfl⟩
      · exact ⟨path, _, hown, ((hwarned w).mp hw).2⟩
    · refine List.nodup_append.mpr ⟨h.once, honce, fun w hw other hother => ?_⟩
      rintro rfl
      obtain ⟨old, stmt, hstmt, hold⟩ := h.warned w hw
      obtain ⟨rfl, -⟩ := Warning.aliasMangled.inj (hold.symm.trans ((hwarned w).mp hother).2)
      rw [hlookup] at hstmt
      exact absurd hstmt (by simp)

/-! ## Packages that are met -/

/-- Whether types of the package are written with a name in front, in a file of the package `target`. -/
def isForeign (target package : String) : Bool := !package.isEmpty && package != target

/-- The imports after packages were met one after the other. -/
def meetAll [Text.Transliteration] (target : String) (packages : List String) (i : Imports) :
    Imports :=
  packages.foldl (fun i package => (i.nameFor target package).2) i

/-- The foreign packages of the types at some positions. -/
def foreignAt (target : String) (m : Model) (places : List Position) : List String :=
  (places.filterMap fun q => (m.at? q).map (·.type.package)).filter (isForeign target)

/-- The foreign packages whose types some calls visit, in the order of the visits. -/
def packagesOf (target : String) (calls : List Call) : List String :=
  calls.flatMap fun call => foreignAt target call.model (positions call.visits)

theorem meetAll_append (packages more : List String) (i : Imports) :
    meetAll target (packages ++ more) i = meetAll target more (meetAll target packages i) :=
  List.foldl_append

theorem meetAll_cons (package : String) (packages : List String) (i : Imports) :
    meetAll target (package :: packages) i = meetAll target packages (i.nameFor target package).2 :=
  rfl

theorem meetAll_consistent [Text.Transliteration] (target : String) (packages : List String) :
    ∀ i : Imports, i.Consistent → (meetAll target packages i).Consistent := by
  induction packages with
  | nil => exact fun _ h => h
  | cons package rest ih => exact fun i h => ih _ (h.nameFor target package)

theorem meetAll_later (packages : List String) : ∀ i, Later i (meetAll target packages i) := by
  induction packages with
  | nil => exact Later.refl
  | cons package rest ih => exact fun i => (nameFor_later i target package).trans (ih _)

theorem qualify_meets (t : TypeInfo) (i : Imports) :
    (qualify target t i).2 = meetAll target ([t.package].filter (isForeign target)) i := by
  unfold qualify
  split
  · rename_i h
    rw [List.filter_cons_of_neg (by simpa [isForeign, ← or_iff_not_imp_left] using h)]
    rfl
  · rename_i h
    rw [List.filter_cons_of_pos (by simpa [isForeign] using h)]
    rfl

theorem atPosition_meets {write : Model → Imports → Model × Imports}
    (hwrite : ∀ m i, (write m i).2 = meetAll target ([m.type.package].filter (isForeign target)) i)
    (q : Position) : ∀ m i,
      (atPosition write q m i).2 = meetAll target (foreignAt target m [q]) i := by
  induction q with
  | nil => exact hwrite
  | cons e rest ih =>
    intro m i
    have hat : m.at? (e :: rest) = (m.part? e).bind (at? · rest) := rfl
    rw [atPosition, foreignAt, List.filterMap_cons, List.filterMap_nil, hat]
    split
    · rename_i hnone
      rw [hnone]
      rfl
    · rename_i p hp
      rw [hp]
      exact ih p i

/-- A visit meets the package of the type that it goes to. -/
theorem run_meets (visit : Visit) (m : Model) (i : Imports) :
    (visit.run target (m, i)).2 = meetAll target (foreignAt target m [visit.position]) i := by
  cases visit with
  | whole q =>
    refine atPosition_meets (fun m i => ?_) q m i
    rw [writeType_eq, ← rebracket_package m.type m.items m.additionalProperties]
    exact qualify_meets _ i
  | name q =>
    refine atPosition_meets (fun m i => ?_) q m i
    rw [writeName_eq]
    exact qualify_meets m.type i

theorem foreignAt_alike (target : String) (h : m.Alike m') (places : List Position) :
    foreignAt target m' places = foreignAt target m places := by
  have hpackage : ∀ q, (m'.at? q).map (·.type.package) = (m.at? q).map (·.type.package) := by
    intro q
    have hq := congrArg (Option.map (·.type.package)) (h q)
    rw [Option.map_map, Option.map_map] at hq
    exact hq.symm
  rw [foreignAt, foreignAt, funext hpackage]

theorem runVisits_meets (visits : List Visit) : ∀ (m : Model) (i : Imports),
    (runVisits target visits (m, i)).2 =
      meetAll target (foreignAt target m (positions visits)) i := by
  induction visits with
  | nil => exact fun _ _ => rfl
  | cons visit rest ih =>
    intro m i
    have hsame := foreignAt_alike target (run_alike target visit (m, i))
    calc (runVisits target (visit :: rest) (m, i)).2
        = (runVisits target rest (visit.run target (m, i))).2 := rfl
      _ = meetAll target (foreignAt target m (positions rest)) (visit.run target (m, i)).2 :=
          (ih _ _).trans (congrArg (meetAll target · _) (hsame (positions rest)))
      _ = meetAll target (foreignAt target m [visit.position] ++
            foreignAt target m (positions rest)) i := by
          rw [run_meets, meetAll_append]
      _ = meetAll target (foreignAt target m (positions (visit :: rest))) i := by
          rw [foreignAt, foreignAt, ← List.filter_append, ← List.filterMap_append]
          rfl

/-- **The imports that calls leave** are those of the packages that they meet. -/
theorem importsOf_eq_meetAll [Text.Transliteration] (target : String) (calls : List Call) :
    importsOf target calls = meetAll target (packagesOf target calls) {} := by
  have hcalls : ∀ i, (runCalls target calls i).2 = meetAll target (packagesOf target calls) i := by
    induction calls with
    | nil => exact fun _ => rfl
    | cons call rest ih =>
      intro i
      have hcall : (call.run target i).2 =
          meetAll target (foreignAt target call.model (positions call.visits)) i := by
        rw [run_eq_runVisits]
        exact runVisits_meets call.visits call.model i
      rw [packagesOf, List.flatMap_cons, meetAll_append, ← hcall]
      exact ih (call.run target i).2
  exact hcalls {}

/-! ## What the table says -/

theorem mem_keys_nameFor : path ∈ Assoc.keys (i.nameFor target package).2.byPath ↔
    path = importPath package target ∨ path ∈ Assoc.keys i.byPath := by
  cases h : i.byPath.lookup (importPath package target) with
  | some stmt =>
    rw [nameFor_known h]
    refine ⟨Or.inr, ?_⟩
    rintro (rfl | hmem)
    · exact Assoc.has_iff_mem_keys.mp (Option.isSome_iff_exists.mpr ⟨stmt, h⟩)
    · exact hmem
  | none =>
    rw [nameFor_new h]
    exact Assoc.mem_keys_putSorted

theorem mem_keys_meetAll [Text.Transliteration] (packages : List String) : ∀ i : Imports,
    path ∈ Assoc.keys (meetAll target packages i).byPath ↔
      path ∈ packages.map (importPath · target) ∨ path ∈ Assoc.keys i.byPath := by
  induction packages with
  | nil => exact fun i => (or_iff_right List.not_mem_nil).symm
  | cons package rest ih =>
    intro i
    rw [List.map_cons, List.mem_cons, or_assoc, or_left_comm, ← mem_keys_nameFor]
    exact ih (i.nameFor target package).2

theorem mem_warnings_nameFor {w : Warning} : w ∈ (i.nameFor target package).2.warnings ↔
    w ∈ i.warnings ∨ i.byPath.lookup (importPath package target) = none ∧
      w ∈ (i.pickName (importPath package target)).2 := by
  cases h : i.byPath.lookup (importPath package target) with
  | some stmt =>
    rw [nameFor_known h]
    simp
  | none =>
    rw [nameFor_new h]
    simp

/-- What is warned of was raised when some package was met. -/
theorem mem_warnings_meetAll {w : Warning} (packages : List String) : ∀ i : Imports,
    w ∈ (meetAll target packages i).warnings ↔ w ∈ i.warnings ∨
      ∃ before package after, packages = before ++ package :: after ∧
        (meetAll target before i).byPath.lookup (importPath package target) = none ∧
        w ∈ ((meetAll target before i).pickName (importPath package target)).2 := by
  induction packages with
  | nil =>
    refine fun i => ⟨Or.inl, ?_⟩
    rintro (hw | ⟨before, package, after, hsplit, -⟩)
    · exact hw
    · exact absurd hsplit (by simp)
  | cons package rest ih =>
    intro i
    refine (ih (i.nameFor target package).2).trans ?_
    -- the package is met first, or among the rest
    rw [mem_warnings_nameFor, or_assoc]
    refine or_congr_right ⟨?_, ?_⟩
    · rintro (⟨hnone, hw⟩ | ⟨before, other, after, rfl, hw⟩)
      · exact ⟨[], package, rest, rfl, hnone, hw⟩
      · exact ⟨package :: before, other, after, rfl, hw⟩
    · rintro ⟨before, other, after, hsplit, hw⟩
      cases before with
      | nil =>
        obtain ⟨rfl, rfl⟩ := List.cons.inj hsplit
        exact Or.inl hw
      | cons first before =>
        obtain ⟨rfl, rfl⟩ := List.cons.inj hsplit
        exact Or.inr ⟨before, other, after, rfl, hw⟩

/-- The packages before which a path is met first, with the package that has it. -/
def FirstMet (target : String) (packages : List String) (path : String) (before : List String) :
    Prop :=
  (∃ package after, packages = before ++ package :: after ∧ importPath package target = path) ∧
    path ∉ before.map (importPath · target)

/-- The path has to do with a name that it does not suggest: none of those was free. -/
def Exhausted [Text.Transliteration] (target : String) (packages : List String) (path : String) :
    Prop :=
  ∃ before, FirstMet target packages path before ∧
    ∀ name ∈ suggestions path, ¬ (meetAll target before {}).Free name

/-- What the imports are once the packages were met. -/
structure Table [Text.Transliteration] (target : String) (packages : List String) (i : Imports) :
    Prop where
  /-- The imports are in order, each path once. -/
  sorted : (i.statements.map (·.path)).Pairwise (· < ·)
  /-- The paths of the packages are imported, and no others. -/
  imported : ∀ path, path ∈ i.statements.map (·.path) ↔ path ∈ packages.map (importPath · target)
  /-- No name is given to two paths. -/
  distinct : (i.statements.map (·.asName)).Nodup
  sound : ∀ stmt ∈ i.statements, Sound stmt
  /-- A path has the name that was picked when it was met first. -/
  picked : ∀ stmt ∈ i.statements, ∀ before, FirstMet target packages stmt.path before →
    Picked (meetAll target before {}) stmt.path stmt.asName
  /-- A path without a free name among those that it suggests is warned of, and no other. -/
  warned : ∀ w, w ∈ i.warnings ↔ ∃ stmt ∈ i.statements,
    Exhausted target packages stmt.path ∧ w = .aliasMangled stmt.path stmt.asName
  once : i.warnings.Nodup

/-- A path is imported under the name that was picked when it was met first. -/
theorem FirstMet.lookup [Text.Transliteration] {before : List String}
    (h : FirstMet target packages path before) :
    (meetAll target before {}).byPath.lookup path = none ∧
      (meetAll target packages {}).byPath.lookup path =
        some (importOf path ((meetAll target before {}).pickName path).1) := by
  obtain ⟨⟨package, after, rfl, rfl⟩, hnew⟩ := h
  have hnone : (meetAll target before {}).byPath.lookup (importPath package target) = none := by
    refine Assoc.lookup_eq_none fun hmem => ?_
    rw [mem_keys_meetAll] at hmem
    exact hmem.elim hnew List.not_mem_nil
  refine ⟨hnone, ?_⟩
  rw [meetAll_append, meetAll_cons]
  refine (meetAll_later after _).stays _ _ ?_
  rw [nameFor_new hnone, Assoc.lookup_putSorted, if_pos rfl]

/-- **The table of names** after packages were met. -/
theorem meetAll_table [Text.Transliteration] (target : String) (packages : List String) :
    Table target packages (meetAll target packages {}) := by
  have hend := meetAll_consistent target packages {} consistent_empty
  have hbefore := fun before => meetAll_consistent target before {} consistent_empty
  -- the import of a path that is met first is the one that was made then
  have hmade : ∀ stmt ∈ (meetAll target packages {}).statements, ∀ before,
      FirstMet target packages stmt.path before →
      stmt = importOf stmt.path ((meetAll target before {}).pickName stmt.path).1 := by
    intro stmt hstmt before hfirst
    have hlookup := lookup_of_statement hend.keyed hstmt
    rw [hfirst.lookup.2] at hlookup
    exact (Option.some.inj hlookup).symm
  refine ⟨?_, fun path => ?_, ?_, hend.sound, fun stmt hstmt before hfirst => ?_, fun w => ?_,
    hend.once⟩
  · rw [hend.keyed.paths]
    exact hend.keyed.sorted
  · rw [hend.keyed.paths, mem_keys_meetAll]
    exact or_iff_left List.not_mem_nil
  · exact hend.distinct
  · have hname := congrArg Import.asName (hmade stmt hstmt before hfirst)
    rw [hname, importOf_asName]
    exact ((hbefore before).pickName stmt.path).1
  · rw [mem_warnings_meetAll]
    constructor
    · rintro (hw | ⟨before, package, after, rfl, hnone, hw⟩)
      · exact absurd hw List.not_mem_nil
      · obtain ⟨hnot, rfl⟩ := (((hbefore before).pickName _).2.2 w).mp hw
        have hfirst : FirstMet target (before ++ package :: after) (importPath package target)
            before := by
          refine ⟨⟨package, after, rfl, rfl⟩, fun hmem => ?_⟩
          have hkey := (mem_keys_meetAll before {}).mpr (Or.inl hmem)
          rw [← Assoc.has_iff_mem_keys, Assoc.has, hnone] at hkey
          exact absurd hkey (by simp)
        refine ⟨_, statement_of_lookup hfirst.lookup.2, ⟨before, hfirst, hnot⟩, ?_⟩
        rw [importOf_asName, importOf]
    · rintro ⟨stmt, hstmt, ⟨before, hfirst, hnot⟩, rfl⟩
      have hnone := hfirst.lookup.1
      have hname := congrArg Import.asName (hmade stmt hstmt before hfirst)
      obtain ⟨⟨package, after, hsplit, hpath⟩, -⟩ := hfirst
      rw [← hpath] at hnone hname hnot ⊢
      refine Or.inr ⟨before, package, after, hsplit, hnone, ?_⟩
      exact (((hbefore before).pickName _).2.2 _).mpr ⟨hnot, by rw [hname, importOf_asName]⟩

/-- What is met later leaves the imports as they are. -/
theorem importsOf_append (target : String) (calls more : List Call) :
    Later (importsOf target calls) (importsOf target (calls ++ more)) := by
  rw [importsOf_eq_meetAll, importsOf_eq_meetAll, packagesOf, packagesOf, List.flatMap_append,
    meetAll_append]
  exact meetAll_later _ _

/-- The packages that calls meet are the foreign ones of the types that they visit. -/
theorem mem_packagesOf_iff (target : String) (calls : List Call) (package : String) :
    package ∈ packagesOf target calls ↔ (package ≠ "" ∧ package ≠ target) ∧
      ∃ n q a a', Visited target calls n q a a' ∧ a.type.package = package := by
  have hforeign : isForeign target package = true ↔ package ≠ "" ∧ package ≠ target := by
    rw [isForeign, Bool.and_eq_true, Bool.not_eq_true', bne_iff_ne, ← Bool.not_eq_true,
      String.isEmpty_iff]
  rw [packagesOf, List.mem_flatMap]
  constructor
  · rintro ⟨call, hcall, hmem⟩
    obtain ⟨hmem, hother⟩ := List.mem_filter.mp hmem
    obtain ⟨q, hq, hat⟩ := List.mem_filterMap.mp hmem
    obtain ⟨a, ha, hpackage⟩ := Option.map_eq_some_iff.mp hat
    obtain ⟨n, hn⟩ := List.mem_iff_getElem?.mp hcall
    obtain ⟨k, hk, -⟩ := runCalls_getElem? target calls n {} hn
    -- a call changes spellings only, so the place is there after it too
    have halike : call.model.Alike (call.run target k).1 := by
      rw [run_eq_runVisits]
      exact runVisits_alike target call.visits (call.model, k)
    have hsome : ((call.run target k).1.at? q).isSome = true := by
      rw [← halike.at?_isSome, ha, Option.isSome_some]
    obtain ⟨a', ha'⟩ := Option.isSome_iff_exists.mp hsome
    exact ⟨hforeign.mp hother, n, q, a, a', ⟨⟨call, hn, hq, ha⟩, ⟨_, hk, ha'⟩⟩, hpackage⟩
  · rintro ⟨hother, n, q, a, a', ⟨⟨call, hn, hq, ha⟩, -⟩, rfl⟩
    refine ⟨call, List.mem_of_getElem? hn, List.mem_filter.mpr ⟨?_, hforeign.mpr hother⟩⟩
    exact List.mem_filterMap.mpr ⟨q, hq, by rw [ha, Option.map_some]⟩

/--
**The table of names.** Whatever is collected one after the other, the imports are those of the
foreign packages that are visited, in the order of their paths, and each path has a name of its own
that can be written: the first free one when the path is met first, which is warned of just if it
is none that the path suggests. Later visits do not change it, and all visited types of the package
are written with it.
-/
theorem importsOf_table (target : String) (calls : List Call) :
    Table target (packagesOf target calls) (importsOf target calls) ∧
      (∀ package, package ∈ packagesOf target calls ↔ (package ≠ "" ∧ package ≠ target) ∧
        ∃ n q a a', Visited target calls n q a a' ∧ a.type.package = package) ∧
      (∀ more, ∀ stmt ∈ (importsOf target calls).statements,
        stmt ∈ (importsOf target (calls ++ more)).statements) ∧
      ∀ n q a a', Visited target calls n q a a' → a.type.package ≠ "" → a.type.package ≠ target →
        ∃ stmt ∈ (importsOf target calls).statements,
          stmt.path = importPath a.type.package target ∧
          a'.type.kclType = stmt.asName ++ "." ++ a.type.kclType := by
  refine ⟨?_, mem_packagesOf_iff target calls, fun more stmt hstmt => ?_, ?_⟩
  · rw [importsOf_eq_meetAll]
    exact meetAll_table target (packagesOf target calls)
  · have hlookup := lookup_of_statement (importsOf_keyed target calls) hstmt
    exact statement_of_lookup ((importsOf_append target calls more).stays _ _ hlookup)
  · intro n q a a' hvisited hsome hother
    obtain ⟨stmt, hstmt, hpath, -, htype⟩ := hvisited.qualified hsome hother
    exact ⟨stmt, hstmt, hpath, htype⟩

end

/-- Three packages with one last segment; the last of them has no other. -/
def versions : List Call :=
  [.whole (podOf "k8s.core.v1"), .rendered (podOf "k8s.apps.v1"), .whole (podOf "v1")]

/--
The first package has the last segment for its name. The second one suggests it too, and then one
with the segment before it, which is free; the third one suggests nothing else.
-/
theorem versions_table :
    (importsOf "models" versions).statements =
        [⟨"k8s.apps.v1", "appsV1", true⟩, ⟨"k8s.core.v1", "v1", false⟩,
          ⟨"v1", "kclMangledV1", true⟩] ∧
      (importsOf "models" versions).warnings = [.aliasMangled "v1" "kclMangledV1"] ∧
      suggestions "k8s.apps.v1" = ["v1", "appsV1", "k8sAppsV1"] ∧
      Picked (meetAll "models" ["k8s.core.v1"] {}) "k8s.apps.v1" "appsV1" ∧
      Exhausted "models" ["k8s.core.v1", "k8s.apps.v1", "v1"] "v1" := by
  have hstatements : (importsOf "models" versions).statements =
      [⟨"k8s.apps.v1", "appsV1", true⟩, ⟨"k8s.core.v1", "v1", false⟩,
        ⟨"v1", "kclMangledV1", true⟩] := by
    decide +kernel
  have hwarnings : (importsOf "models" versions).warnings = [.aliasMangled "v1" "kclMangledV1"] := by
    decide +kernel
  have hpackages : packagesOf "models" versions = ["k8s.core.v1", "k8s.apps.v1", "v1"] := by
    decide +kernel
  obtain ⟨htable, -⟩ := importsOf_table "models" versions
  rw [hpackages] at htable
  refine ⟨hstatements, hwarnings, by decide +kernel, ?_, ?_⟩
  · refine htable.picked ⟨"k8s.apps.v1", "appsV1", true⟩ (by simp [hstatements]) ["k8s.core.v1"] ?_
    exact ⟨⟨"k8s.apps.v1", ["v1"], rfl, by decide⟩, by decide⟩
  · obtain ⟨stmt, -, hexhausted, hwarning⟩ := (htable.warned _).mp (hwarnings ▸ List.mem_cons_self)
    exact (Warning.aliasMangled.inj hwarning).1 ▸ hexhausted

end Imports

end KclModels
