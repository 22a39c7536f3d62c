import KclModels.Build.Session

/-!
# Building models

A schema becomes a model together with the models below it. Objects without a name, tuples and
composed scalars are made definitions of their own on the way, and the schema that held one then
refers to it and is looked at again.

The steps are written for any way `build` to build the frames below; `buildIn` ties the knot with a
bound on the depth. Frames below hold smaller schemas, except that a schema may be looked at again
once it is a definition and once one of its parts is a reference, so a multiple of the size of the
schema is enough.
-/

namespace KclModels

variable [Text.Transliteration]

/-- A text without the byte order marks it starts with. -/
def trimMarks (s : String) : String := String.ofList (s.toList.dropWhile (· = '\uFEFF'))

/-- Points a value of a map, and the values of the maps that it is, at the expression of the map. -/
def pointValue (parent : String) : Model → Model
  | ⟨facts, items, extraItems, properties, allOf, value⟩ =>
    let expression := parent ++ "[" ++ facts.keyVar ++ "]"
    ⟨{ facts with valueExpression := expression }, items, extraItems, properties, allOf,
      match value with
      | some v => some (pointValue expression v)
      | none => none⟩

namespace Frame

variable (setting : Setting) (build : Frame → Build Frame)

/-- The schema of the frame, with a change. -/
def mapSchema (f : Frame) (g : Schema → Schema) : Frame := { f with schema := g f.schema }

/-- The model of the frame, with a change. -/
def mapModel (f : Frame) (g : Model → Model) : Frame := { f with model := g f.model }

/-- The type of the model of the frame, with a change. -/
def mapType (f : Frame) (g : TypeInfo → TypeInfo) : Frame :=
  f.mapModel fun m => { m with type := g m.type }

def dependOn (f : Frame) (names : List String) : Frame :=
  { f with dependencies := f.dependencies ++ names }

/-- Points the values of a map at the expression of the map. -/
def pointMap (f : Frame) : Frame :=
  if f.model.type.map && f.model.hasAdditionalProperties then
    f.mapModel fun m => { m with
      additionalProperties := m.additionalProperties.map (pointValue m.valueExpression) }
  else f

/-- The constraints of the schema with its enum pruned. -/
def constraints (f : Frame) : Build Constraints := do
  let c := Constraints.ofSchema f.schema
  if c.enumValues.isEmpty then return c
  match Constraints.pruneEnum c.enumValues with
  | none => throw (.complexEnumValue f.path)
  | some (kept, droppedNull) =>
    if droppedNull then Build.warn (.nullEnumValue f.path)
    return ({ c with enumValues := kept }).refresh

/-- The frame with what its model takes straight from the place and the schema. -/
def filled (f : Frame) (constraints : Constraints) : Frame :=
  let s := f.schema
  let keepOrder := setting.options.keepOrder
  f.mapModel fun m => { m with
    exported := true
    path := f.path
    indexVar := f.indexVar
    keyVar := f.keyVar
    valueExpression := f.valueExpression
    receiverName := f.receiver
    reference := s.referenceName
    documentName := f.name
    name := f.name
    declaredName := Naming.schemaName f.name
    title := s.title.map trimMarks
    description := s.description.map trimMarks
    constraints
    readOnly := s.readOnly
    required := f.required
    virtual := f.virtual
    strictAdditionalProperties := setting.options.strictAdditionalProperties
    defaultValue := s.defaultValue.map (Value.ordered keepOrder)
    exampleValue := s.exampleValue.map (Value.ordered keepOrder)
    extensions := s.extensions
    order := s.hints.order }

/-- Fills in what the model takes straight from the place and the schema. -/
def populate (f : Frame) : Build Frame := return f.filled setting (← f.constraints)

/-- Gives the model its type. -/
def setType (f : Frame) (t : TypeInfo) (isBase : Bool) : Frame :=
  f.mapModel fun m => { m with isBase, type := t }

/-- The frame with nothing built. -/
def restart (f : Frame) : Frame := { f with model := {} }

/-- The frame with a reference in place of its schema, of which a definition was made. -/
def referTo (f : Frame) (name : String) : Frame := { f with schema := Schema.referenceTo name }

/-- Says whether the values of the frame have to be present. -/
def require (f : Frame) (required : Bool) : Frame := { f with required }

/-- Marks that the schema stands in part for definitions that were made. -/
def makeVirtual (f : Frame) : Frame := { f with virtual := true }

/-- Adds a built branch to the composition. -/
def addBranch (f branch : Frame) : Frame :=
  (f.merge branch true).mapModel fun m => { m with allOf := m.allOf ++ [branch.model] }

/-- Takes a built frame for the values beyond the declared properties. -/
def setValue (f child : Frame) : Frame :=
  (f.merge child false).mapModel fun m => { m with additionalProperties := some child.model }

/-! ## Definitions that are references -/

/-- The type of an alias: the structure by the shape, the rest by the target. -/
def aliasType (shape : Shape) (target : TypeInfo) : TypeInfo where
  array := shape.array
  map := shape.map
  primitive := shape.known && !shape.array && !shape.map
  complex := !(shape.array || shape.map || shape.known)
  baseType := target.baseType
  discriminated := target.discriminated
  kclType := target.kclType
  package := target.package
  packageAlias := target.packageAlias
  module := target.module
  swaggerType := target.swaggerType
  swaggerFormat := target.swaggerFormat
  element := target.element

/-- Takes over a built alias, with the type of what it stands for. -/
def takeAlias (f alias_ : Frame) (shape : Shape) (target : TypeInfo) : Frame :=
  { f.merge alias_ true with model := { alias_.model with
    isBase := target.baseType
    type := aliasType shape target } }

/-- The type of a definition that composes one branch, the definition it refers to. -/
def soleBranchType (kclType : String) : TypeInfo :=
  { complex := true, kclType, swaggerType := "object" }

/--
A definition that is a reference is an alias of its target if that is an array, map, known type or
polymorphic base, else a composition with the target as its one branch.
-/
def buildReference (f : Frame) : Build Frame := do
  let shape ← Build.ofReference (Shape.ofSchema (← Build.registry) f.schema)
  if shape.array || shape.map || shape.known || shape.base then
    let target ← Build.resolve setting f f.schema false true
    let alias_ ← build f.aliasOf
    return f.takeAlias alias_ shape target
  else
    let kclType := (← Build.resolver setting f).modelTypeName
    let branch ← build (f.branch f.schema 0)
    return (f.mapType fun _ => soleBranchType kclType).addBranch branch

/-! ## Compositions -/

/-- Whether a branch of a composition says anything about values. -/
def isSubstantive (branch : Schema) : Bool :=
  !branch.types.isEmpty || !branch.properties.isEmpty || branch.reference.isSome ||
    !branch.allOf.isEmpty

/-- The frame with a branch of its composition in place of the schema. -/
def lift (f : Frame) (branch : Schema) : Frame :=
  { f.dependOn branch.referenceName.toList with schema := branch }

/--
Puts the one substantive branch of a composition in place of the schema, if it is a named object or
a primitive type.
-/
def liftBranch (f : Frame) : Build Frame := do
  if f.schema.allOf.length < 2 then return f
  match f.schema.allOf.filter isSubstantive with
  | [] => return f
  | branch :: others =>
    let t ← Build.resolve setting f branch true true
    if others.isEmpty && ((!t.anonymous && t.complex) || t.primitive) then
      return f.lift branch
    else return f

/-- Whether a branch becomes a definition: a composition in a composition, or an array or scalar. -/
def branchNeedsName (branch : Schema) (t : TypeInfo) : Bool :=
  (t.anonymous && !branch.allOf.isEmpty) ||
    (branch.reference.isNone && !t.complex && (t.array || t.primitive))

/-- Puts a schema in place of the branch with number `index`. -/
def mapBranch (f : Frame) (index : Nat) (branch : Schema) : Frame :=
  f.mapSchema fun s => { s with allOf := s.allOf.set index branch }

/-- Builds the branch with number `index`, and says whether it is an array. -/
def buildBranch (f : Frame) (index : Nat) (branch : Schema) : Build (Frame × Bool) := do
  let t ← Build.resolve setting f branch branch.reference.isNone false
  if branchNeedsName branch t then
    let base := branch.nameOr (f.name ++ "AllOf" ++ toString index)
    let hoisted ← build (← Build.hoist f base branch)
    let reference := Schema.referenceTo hoisted.name
    let f := f.mapBranch index reference
    let composed ← build (f.branch reference index)
    return (f.addBranch (composed.addExtra hoisted), t.array)
  else
    let composed ← build (f.branch branch index)
    return (f.addBranch composed.pointMap, t.array)

/-- Builds the branches from number `index` on, and says for each whether it is an array. -/
def buildBranches (f : Frame) (index : Nat) : List Schema → Build (Frame × List Bool)
  | [] => return (f, [])
  | branch :: rest => do
    let (f, array) ← buildBranch setting build f index branch
    let (f, arrays) ← buildBranches f (index + 1) rest
    return (f, array :: arrays)

/-- Builds the branches of a composition. -/
def buildAllOf (f : Frame) : Build Frame := do
  if f.schema.allOf.isEmpty then return f
  let (f, arrays) ← buildBranches setting build f 0 f.schema.allOf
  let count := arrays.count true
  if 1 < count || (0 < count && count < arrays.length) then
    Build.warn (.arrayConflict f.container)
  return f

/-! ## Additional properties -/

/-- Whether the values of a map have to be present. -/
def valueRequired (shape : Shape) : Bool := !shape.simple && !shape.map

/-- Puts a schema in place of that of the values. -/
def mapExtraValue (f : Frame) (value : Schema) : Frame :=
  f.mapSchema fun s => { s with additionalProperties := some (.schema value) }

/-- Builds the innermost value of maps of maps, which has the type `t` and lies below `parent`. -/
def buildMapLeaf (parent level : Frame) (t : TypeInfo) : Build Frame := do
  let level ←
    if t.complex && t.anonymous then
      let hoisted ← build (← Build.hoist parent (parent.name ++ " Anon") level.schema)
      pure ((level.referTo hoisted.name).addExtra hoisted)
    else pure level
  let shape ← Build.ofReference (Shape.ofSchema (← Build.registry) level.schema)
  build (level.require (valueRequired shape))

/-- Gives the model the type of a map. -/
def makeMap (f : Frame) (t : TypeInfo) : Frame :=
  f.mapModel fun m => { m with type := t, hasAdditionalProperties := true }

/-- Puts a level of maps of maps together from the level below it. -/
def joinMapLevel (level child : Frame) : Build Frame := do
  let level ← (level.mapExtraValue child.schema).populate setting
  let t ← Build.resolve setting level level.schema true level.required
  return (level.makeMap t).setValue child

/--
Builds a level of maps of maps below `parent`: the innermost value is built as a frame of its own,
the levels above it are put together from what is below them.
-/
def buildMapLevel (parent : Frame) : Schema → Build Frame
  | ⟨keywords, properties, allOf, items, value, extraItems⟩ => do
    let level := parent.mapValue ⟨keywords, properties, allOf, items, value, extraItems⟩
    let t ← Build.resolve setting level level.schema keywords.reference.isNone false
    match value with
    | some (.schema next) =>
      if t.map && keywords.reference.isNone then
        let child ← buildMapLevel level next
        level.joinMapLevel setting child
      else buildMapLeaf build parent level t
    | _ => buildMapLeaf build parent level t

/-- Builds the values of a map. -/
def buildMap (f : Frame) (value : Schema) : Build Frame := do
  let child ← buildMapLevel setting build f value
  return (f.mapExtraValue child.schema).setValue child

/-- An object without a name that has both kinds of properties becomes a definition. -/
def hoistExtended (f : Frame) : Build Frame := do
  let base := f.model.name ++ " P" ++ toString f.index
  let hoisted ← build (← Build.hoist f base f.schema)
  let f ← build (f.referTo hoisted.name).restart
  return f.addExtra hoisted

/-- Puts a reference in place of the schema of the values, of which a definition was made. -/
def referValue (f : Frame) (name : String) : Frame :=
  (f.mapExtraValue (Schema.referenceTo name)).makeVirtual

/-- Makes a definition of the values beyond the declared properties if they need one. -/
def hoistExtraValue (f : Frame) (value : Schema) (t : TypeInfo) :
    Build (Frame × Schema × Option Frame) := do
  if t.complex && t.anonymous then
    let hoisted ← build (← Build.hoist f (f.name ++ " Anon") value)
    return (f.referValue hoisted.name, Schema.referenceTo hoisted.name, some hoisted)
  else return (f, value, none)

/-- Takes over the frame of a definition that was made, if one was. -/
def addExtra? (f : Frame) : Option Frame → Frame
  | some hoisted => f.addExtra hoisted
  | none => f

/-- Points the values beyond the declared properties at the store that holds them. -/
def setStore (f child : Frame) : Frame :=
  let store := f.model.valueExpression ++ "." ++ Naming.pascalize f.model.name
  let child := child.mapModel fun m => { m with
    valueExpression := store ++ "[" ++ child.keyVar ++ "]" }
  (f.mapModel fun m => { m with valueExpression := store }).setValue child

/-- Builds the values beyond the declared properties of a definition. -/
def buildExtraValues (f : Frame) (value : Schema) : Build Frame := do
  let t ← Build.resolve setting f value value.reference.isNone false
  let (f, value, hoisted) ← hoistExtraValue build f value t
  let shape ← Build.ofReference (Shape.ofSchema (← Build.registry) value)
  let child ← build ((f.mapValue value).require (valueRequired shape))
  return f.setStore (child.addExtra? hoisted)

/-- Marks that more is allowed than the declared properties, beside them if there are any. -/
def markExtra (f : Frame) (declared : Bool) : Frame :=
  let f := f.mapModel fun m => { m with hasAdditionalProperties := true }
  if declared then
    (f.mapModel fun m => { m with isAdditionalProperties := true }).mapType
      fun t => { t with map := false }
  else f

/-- Allows values of which nothing is known: without declared properties that makes a map. -/
def allowAny (f : Frame) (declared : Bool) : Frame :=
  if declared then f else f.mapType fun t => { t with map := true }

/-- Builds values of which nothing is known, beside the declared properties if there are any. -/
def buildAnyValues (f : Frame) (declared : Bool) : Build Frame := do
  let f := f.allowAny declared
  let value ← build (f.mapValue (Schema.typed "object"))
  return f.setValue value

/-- Says whether nothing is allowed beyond the declared properties. -/
def deny (f : Frame) (extra : Extra Schema) : Frame :=
  f.mapModel fun m => { m with additionalPropertiesDenied := extra.isDenied }

/-- Builds what is allowed beyond the declared properties. -/
def buildAdditionalProperties (f : Frame) : Build Frame := do
  match f.schema.additionalProperties with
  | none => return f
  | some extra =>
    let f := f.deny extra
    if !extra.isEnabled then return f
    let declared := f.model.type.complex
    let f := f.markExtra declared
    match extra with
    | .flag _ => buildAnyValues build f declared
    | .schema value =>
      if !declared then buildMap setting build f value
      else if !f.named then hoistExtended build f
      else buildExtraValues setting build f value

/-! ## Properties -/

/-- Marks the part in polymorphism of the definition that a reference names. -/
def markRole (f : Frame) (reference : String) : Frame :=
  let f := if setting.polymorphism.isBase reference then
      f.mapModel fun m => { m with isBase := true, hasBase := true }
    else f
  if setting.polymorphism.isSubtype reference then
    f.mapModel fun m => { m with isSubtype := true }
  else f

/-- Takes over constraints where the model has none of its own. -/
def inheritConstraints (f : Frame) (c : Constraints) : Frame :=
  f.mapModel fun m => { m with constraints := m.constraints.inherit c }

/--
What a property takes from the definition it refers to: its part in polymorphism and constraints.
-/
def decorate (f : Frame) (reference : String) : Build Frame := do
  let f := f.markRole setting reference
  let registry ← Build.registry
  let target ← Build.ofReference (registry.resolve reference)
  let resolver : Resolver := {
    registry, options := setting.options
    modelName := (Reference.name? reference).getD ""
    path := f.path }
  let _ ← Build.ofType (resolver.resolve target false true)
  if target.isConstrained then
    let c := Constraints.ofSchema target
    match Constraints.pruneEnum c.enumValues with
    | none => throw (.complexEnumValue f.path)
    | some (kept, _) =>
      return f.inheritConstraints ({ c with enumValues := kept }).refresh
  else return f

/-- Whether a property becomes a definition: an object without a name that declares something. -/
def propertyNeedsName (s : Schema) (t : TypeInfo) : Bool :=
  t.complex && t.anonymous && (!s.properties.isEmpty || !s.allOf.isEmpty)

/-- The place of a definition that was made of a property of `f`. -/
def within (hoisted f : Frame) (name : String) : Frame :=
  { hoisted with tuple := f.tuple, path := f.path ++ ".\"" ++ name ++ "\"" }

/-- Marks the model as one with subtypes. -/
def markBase (f : Frame) : Frame := f.mapModel fun m => { m with isBase := true, hasBase := true }

/-- The frame of a definition with a discriminator is marked. -/
def markDiscriminated (hoisted : Frame) (s : Schema) : Frame :=
  if s.discriminator.isSome then hoisted.markBase else hoisted

/--
Makes a definition of a property that needs one; gives the schema that the property is left with.
-/
def hoistProperty (f : Frame) (name : String) (s : Schema) (t : TypeInfo) :
    Build (Frame × Schema) := do
  if propertyNeedsName s t then
    let base := s.nameOr (f.name ++ Naming.pascalize name)
    let hoisted ← Build.hoist f base s
    let hoisted ← build (hoisted.within f name)
    return (f.addExtra (hoisted.markDiscriminated s), Schema.referenceTo hoisted.name)
  else return (f, s)

/-- The frame of a property, which is required in places of a tuple. -/
def propertyPlace (f : Frame) (name : String) (s : Schema) (required : Bool) : Frame :=
  let place := f.property name s
  { place with required := place.required || required, tuple := f.tuple }

/-- Adds a built property. -/
def addProperty (f property : Frame) (position : Nat) : Frame :=
  (f.merge property false).mapModel fun m => { m with
    hasBase := m.hasBase || property.model.isBase
    properties := m.properties ++ [{ property.model with position }] }

/-- Builds the property with number `position`. -/
def buildProperty (f : Frame) (position : Nat) (name : String) (s : Schema) : Build Frame := do
  let required := f.tuple || f.schema.required.contains name
  let t ← Build.resolve setting f s true required
  let (f, s) ← hoistProperty build f name s t
  let property ← build (f.propertyPlace name s required)
  let property ← match property.schema.reference with
    | some reference => property.decorate setting reference
    | none => pure property
  return f.addProperty property position

/-- Builds the properties from number `position` on. -/
def buildPropertyList (f : Frame) (position : Nat) : List (String × Schema) → Build Frame
  | [] => return f
  | (name, s) :: rest => do
    let f ← buildProperty setting build f position name s
    buildPropertyList f (position + 1) rest

/-- Puts the properties in order. -/
def orderProperties (f : Frame) : Frame :=
  f.mapModel fun m => { m with
    properties := Model.sortProperties m.properties setting.options.keepOrder }

/-- Builds the properties and puts them in order. -/
def buildProperties (f : Frame) : Build Frame := do
  let f ← buildPropertyList setting build f 0 f.schema.properties
  return f.orderProperties setting

/-! ## Items -/

/-- Puts a schema in place of that of the elements. -/
def mapItem (f : Frame) (item : Schema) : Frame :=
  f.mapSchema fun s => { s with items := some (.single item) }

/-- Takes a built frame for the elements of an array. -/
def setElement (f element : Frame) : Frame :=
  let items : Model := { element.model with
    suffix := "Items"
    required := false
    constraints := { element.model.constraints with
      present := element.model.constraints.present || element.schema.isConstrained } }
  (f.merge element false).mapModel fun m => { m with
    isBase := items.isBase
    itemsEnum := items.constraints.enumValues
    type := { m.type with kclType := "[" ++ items.type.kclType ++ "]", array := true }
    constraints := { m.constraints with
      present := m.constraints.present || items.constraints.present
      presentOnItems := f.schema.constrainsItems }
    items := some items }

/-- Builds the elements of an array. -/
def buildArray (f : Frame) (item : Schema) : Build Frame := do
  let t ← Build.resolve setting f item true false
  if t.complex && t.anonymous then
    let base := item.nameOr (f.name ++ " items" ++ toString f.index)
    let hoisted ← build (← Build.hoist f base item)
    let f ← build (f.mapItem (Schema.referenceTo hoisted.name)).makeVirtual.restart
    return f.addExtra hoisted
  else
    let place := f.element item setting.polymorphism
    let f := f.markElements item setting.polymorphism
    let element ← build place
    return f.setElement element

/-- The name of a place of a tuple. -/
def placeName (index : Nat) : String := "p" ++ toString index

/-- Adds a built place of a tuple. -/
def addPlace (f element : Frame) (index : Nat) : Frame :=
  (f.merge element false).mapModel fun m => { m with
    properties := m.properties ++ [{ element.model with
      name := placeName index, declaredName := placeName index, position := index }] }

/-- Makes a definition of a place of a tuple that needs one; gives the frame of the place. -/
def hoistPlace (f : Frame) (index : Nat) (s : Schema) : Build Frame := do
  let place := f.tuplePlace s index
  if s.reference.isSome then return place
  let t ← Build.resolve setting f s true true
  if t.complex && t.anonymous then
    let base := s.nameOr (f.name ++ " Items" ++ toString index)
    let hoisted ← build (← Build.hoist f base s)
    return (place.referTo hoisted.name).addExtra hoisted
  else return place

/-- Builds the places of a tuple from number `index` on. -/
def buildPlaces (f : Frame) (index : Nat) : List Schema → Build Frame
  | [] => return f
  | s :: rest => do
    let element ← build (← hoistPlace setting build f index s)
    buildPlaces (f.addPlace element index) (index + 1) rest

/-- Marks the model as a tuple with the type name `kclType`. -/
def markTuple (f : Frame) (kclType : String) : Frame :=
  let f := f.mapModel fun m => { m with name := f.name, declaredName := Naming.schemaName f.name }
  f.mapType fun t => { t with kclType, tuple := true }

/-- Builds a tuple with a name: its places are properties. -/
def buildTuple (f : Frame) (places : List Schema) : Build Frame := do
  let kclType := (← Build.resolver setting f).modelTypeName
  buildPlaces setting build (f.markTuple kclType) 0 places

/-- The object whose properties are the places of a tuple. -/
def tupleRecord (places : List Schema) (extraItems : Option (Extra Schema)) : Schema :=
  let named := places.zipIdx.map fun (s, i) => (placeName i, s)
  { types := ["object"]
    required := named.map Prod.fst
    properties := named
    additionalItems := extraItems }

/-- The frame of the object that stands for a tuple, marked as one. -/
def asTuple (f : Frame) : Frame :=
  f.mapModel fun m => { m with
    type := { m.type with tuple := true, complex := false }
    title := some (f.name ++ " a representation of an anonymous Tuple type")
    description := none }

/-- A tuple without a name becomes a definition with its places as properties. -/
def hoistTuple (f : Frame) (places : List Schema) : Build Frame := do
  let base := f.model.name ++ "Tuple" ++ toString f.index
  let hoisted ← Build.hoist f base (tupleRecord places f.schema.additionalItems)
  let hoisted ← build { hoisted with tuple := true }
  let f ← build (f.referTo hoisted.name).restart
  return f.addExtra hoisted.asTuple

/-- Builds what `items` says. -/
def buildItems (f : Frame) : Build Frame :=
  match f.schema.items with
  | none => return f
  | some (.single item) => buildArray setting build f item
  | some (.tuple places) =>
    if f.named then buildTuple setting build f places else hoistTuple build f places

/-- Puts a schema in place of that of the additional items. -/
def mapExtraItem (f : Frame) (item : Schema) : Frame :=
  f.mapSchema fun s => { s with additionalItems := some (.schema item) }

/-- Makes a definition of additional items that need one. -/
def hoistExtraItems (f : Frame) (s : Option Schema) (t : TypeInfo) :
    Build (Frame × Option Schema × Option Frame) := do
  match s with
  | some s =>
    if t.complex && t.anonymous then
      let base := s.nameOr (f.name ++ " Items")
      let hoisted ← build (← Build.hoist f base s)
      let reference := Schema.referenceTo hoisted.name
      return (f.mapExtraItem reference, some reference, some hoisted)
    else return (f, some s, none)
  | none => return (f, none, none)

/-- The frame of the items past the places of a tuple; arrays get an index of their own. -/
def extraItemsPlace (f : Frame) (s : Schema) (array : Bool) : Frame :=
  let place := f.additionalItems s
  if array then { place with indexVar := place.indexVar ++ "i" } else place

/-- Takes a built frame for the items past the places of a tuple. -/
def setExtraItems (f items : Frame) : Frame :=
  (f.merge items true).mapModel fun m => { m with additionalItems := some items.model }

/-- Says whether more is allowed than the items that are described. -/
def allowItems (f : Frame) (extra : Extra Schema) : Frame :=
  f.mapModel fun m => { m with hasAdditionalItems := extra.isEnabled }

/-- Builds the items past the places of a tuple, with the schema that they have, if any. -/
def buildExtraItems (f : Frame) (s : Option Schema) : Build Frame := do
  let t ← Build.ofType ((← Build.resolver setting f).resolveOptional s true true)
  let (f, s, hoisted) ← hoistExtraItems build f s t
  let items ← build (f.extraItemsPlace (s.getD {}) t.array)
  return f.setExtraItems (items.addExtra? hoisted)

/-- Builds what is allowed past the items that are described. -/
def buildAdditionalItems (f : Frame) : Build Frame :=
  match f.schema.additionalItems with
  | none => return f
  | some extra =>
    if !extra.isEnabled then return f.allowItems extra
    else if f.schema.singleItem?.isSome then throw (.mixedItems f.path)
    else buildExtraItems setting build (f.allowItems extra) extra.schema?

/-! ## Schemas -/

/-- A frame without a container is its own. -/
def fillContainer (f : Frame) : Frame :=
  if f.container.isEmpty then { f with container := f.model.name } else f

/-- Gives the model the type of its schema as that is now; the structure stays as it is. -/
def retype (f : Frame) (t : TypeInfo) : Frame :=
  f.setType { t with complex := f.model.type.complex, map := f.model.type.map } t.discriminated

/-- Builds a frame, given how the frames below it are built. -/
def buildStep (f : Frame) : Build Frame := do
  let f ← f.populate setting
  let f := f.dependOn f.schema.referenceName.toList
  if f.named && f.schema.reference.isSome then buildReference setting build f
  else
    let f ← f.liftBranch setting
    let f ← buildAllOf setting build f.fillContainer
    let required := f.tuple || f.required || f.model.required
    let t ← Build.resolve setting f f.schema (!f.named) required
    let f ← buildAdditionalProperties setting build (f.setType t t.baseType)
    let f := f.pointMap
    -- The schema may have changed, so the type is looked up again.
    let t ← Build.resolve setting f f.schema (!f.named) (f.named || f.tuple)
    let f ← buildProperties setting build (f.retype t)
    let f ← buildAdditionalItems setting build f
    buildItems setting build f

end Frame

/-- Builds a frame with at most `depth` frames below each other. -/
def buildIn (setting : Setting) : (depth : Nat) → Frame → Build Frame
  | 0, _ => throw .endless
  | depth + 1, f => f.buildStep setting (buildIn setting depth)

/-- A bound on the depth of frames that a schema needs. -/
def depthBound (s : Schema) : Nat := 4 * s.size + 8

/-- Builds a frame: the model of its schema, with what was taken out and what is referred to. -/
def Frame.build (setting : Setting) (f : Frame) : Build Frame :=
  buildIn setting (depthBound f.schema) f

end KclModels
