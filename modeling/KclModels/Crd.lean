import KclModels.Swagger

/-!
# Custom resources

Kubernetes describes custom resources in `CustomResourceDefinition` manifests. They are turned into
one document with a definition for each version that has a schema; each definition gets the fields
that every resource has.
-/

namespace KclModels.Crd

def kindName : String := "CustomResourceDefinition"

/-- Why manifests cannot be turned into a document. -/
inductive Error
  | noManifest
  | otherKind (index : Nat)
  | badManifest (index : Nat) (why : Misfit)
  | noVersion (group : String)
  | noSchema (kind : String)
  | badSchema (name : String) (why : Misfit)
deriving DecidableEq, Inhabited, Repr

/-- The texts of an error, outermost first. -/
def Error.chain : Error → List String
  | .noManifest => ["no CustomResourceDefinition found in the input"]
  | .otherKind index => ["document #" ++ toString index ++ " is not a " ++ kindName]
  | .badManifest index why =>
    ["invalid " ++ kindName ++ " in document #" ++ toString index, why.message]
  | .noVersion group => ["CRD for group '" ++ group ++ "' declares no version"]
  | .noSchema kind =>
    ["no openapi schema found in the crd file, please check the spec.validation or " ++
      "spec.versions[].schema field of kind '" ++ kind ++ "'"]
  | .badSchema name why => ["invalid openAPIV3Schema for '" ++ name ++ "'", why.message]

/-! ## Manifests -/

/-- A version of a custom resource. -/
structure Version where
  name : String := ""
  /-- The value that describes the resource, if there is one. -/
  schema : Option Value := none
deriving Inhabited

/-- A custom resource. -/
structure Manifest where
  group : String := ""
  kind : String := ""
  version : Option String := none
  /-- The value that describes the resource in all versions, if there is one. -/
  validation : Option Value := none
  versions : List Version := []
deriving Inhabited

/-- Reads the value that describes a resource. -/
def readValidation (n : Node) : Except Fault (Option Value) := do
  let inner ← n.option .value <| Node.record .value "CrdValidation"
    [{ name := "openAPIV3Schema"
       read := fun n => (n.option .value (Node.value .value)).map fun v _ => v }] none
  return inner.join

/-- The fields of a version. -/
def versionSlots : List (Node.Slot Version) :=
  [{ name := "name", required := true
     read := fun n => (n.string .value).map fun s v => { v with name := s } },
   { name := "schema", read := fun n => (readValidation n).map fun s v => { v with schema := s } }]

/-- The fields of the names of a resource. -/
def nameSlots : List (Node.Slot Manifest) :=
  [{ name := "kind", required := true
     read := fun n => (n.string .value).map fun s m => { m with kind := s } }]

/-- The fields of the specification of a resource. -/
def specSlots : List (Node.Slot Manifest) :=
  [{ name := "group", required := true
     read := fun n => (n.string .value).map fun s m => { m with group := s } },
   { name := "names", required := true
     read := fun n =>
      (n.record .value "CrdNames" nameSlots {}).map fun names m => { m with kind := names.kind } },
   { name := "version"
     read := fun n => (n.option .value (Node.string .value)).map fun s m => { m with version := s } },
   { name := "validation"
     read := fun n => (readValidation n).map fun s m => { m with validation := s } },
   { name := "versions"
     read := fun n =>
      (n.list .value (Node.record .value "CrdVersion" versionSlots {})).map fun vs m =>
        { m with versions := vs } }]

/-- The fields of a manifest. -/
def manifestSlots : List (Node.Slot Manifest) :=
  [{ name := "spec", required := true
     read := fun n => (n.record .value "CrdSpec" specSlots {}).map fun spec _ => spec }]

/-- Reads a manifest. -/
def Manifest.ofValue (v : Value) : Except Fault Manifest :=
  (Node.ofValue v).record .value kindName manifestSlots {}

/-- Whether a value is a manifest of a custom resource. -/
def isManifest (v : Value) : Bool := (v.field? "kind").bind Value.asString? == some kindName

/-- The misfit of a fault; values are always well formed. -/
def misfitOf : Fault → Misfit
  | .misfit _ why => why
  | .malformed => .wrongType "" ""

/--
The versions of a resource with the values that describe them: one for all versions, under the name
of the resource's version or of the first, or else those of the versions that have one.
-/
def Manifest.described (m : Manifest) : Except Error (List (String × Value)) :=
  match m.validation with
  | some schema =>
    match m.version.or ((m.versions.head?).map (·.name)) with
    | some version => .ok [(version, schema)]
    | none => .error (.noVersion m.group)
  | none =>
    match m.versions.filterMap fun v => v.schema.map fun s => (v.name, s) with
    | [] => .error (.noSchema m.kind)
    | described => .ok described

/-! ## Definitions -/

/-- The definition that holds what every resource says about itself. -/
def objectMetaName : String := "io.k8s.apimachinery.pkg.apis.meta.v1.ObjectMeta"

/-- Where the conventions of the fields of every resource are explained. -/
def conventions : String :=
  "https://git.k8s.io/community/contributors/devel/sig-architecture/api-conventions.md"

def apiVersionText : String :=
  "APIVersion defines the versioned schema of this representation of an object. " ++
  "Servers should convert recognized schemas to the latest internal value, " ++
  "and may reject unrecognized values. More info: " ++ conventions ++ "#resources"

def kindText : String :=
  "Kind is a string value representing the REST resource this object represents. " ++
  "Servers may infer this from the endpoint the client submits requests to. " ++
  "Cannot be updated. In CamelCase. More info: " ++ conventions ++ "#types-kinds"

def metadataText : String := "Standard object's metadata. More info: " ++ conventions ++ "#metadata"

/-- A string that is always the same. -/
def fixedString (value text : String) : Schema :=
  { types := ["string"]
    readOnly := true
    defaultValue := some (.str value)
    description := some text }

/-- The fields that every resource has. -/
def commonProperties (group version kind : String) : List (String × Schema) :=
  [("apiVersion", fixedString (group ++ "/" ++ version) apiVersionText),
    ("kind", fixedString kind kindText),
    ("metadata",
      { reference := some (Reference.toDefinition objectMetaName)
        description := some metadataText })]

/-- Adds a name to a list that lacks it. -/
def withName (names : List String) (name : String) : List String :=
  if names.contains name then names else names ++ [name]

/-- The schema of a resource: the fields that every resource has, then the others of its own. -/
def withCommon (s : Schema) (group version kind : String) : Schema :=
  { s with
    types := if s.types.isEmpty then ["object"] else s.types
    properties := s.properties.foldl (fun m (name, p) => Assoc.putNew m name p)
      (commonProperties group version kind)
    required := withName (withName s.required "apiVersion") "kind" }

/-- The definition of the metadata of resources, for which an existing type stands. -/
def objectMeta : Schema where
  types := ["object"]
  description := some "ObjectMeta is metadata that all persisted resources must have."
  extensions := [(Hints.kclTypeKey, .obj
    [("type", .str "ObjectMeta"),
      ("import", .obj
        [("package", .str "k8s.apimachinery.pkg.apis.meta.v1.object_meta"), ("alias", .str "v1")])])]
  hints := { existing := some {
    name := "ObjectMeta"
    importPath := some "k8s.apimachinery.pkg.apis.meta.v1.object_meta"
    importAlias := some "v1" } }

/-- The name of the definition of a version. -/
def definitionName (group version kind : String) : String := group ++ "." ++ version ++ "." ++ kind

/-- Adds the definitions of versions. -/
def addVersions (m : Manifest) (definitions : Definitions) :
    List (String × Value) → Except Error Definitions
  | [] => .ok definitions
  | (version, value) :: rest => do
    let name := definitionName m.group version m.kind
    let s ← (Schema.ofValue value).mapError fun e => .badSchema name (misfitOf e)
    addVersions m (Assoc.put definitions name (withCommon s m.group version m.kind)) rest

/-- Adds the definitions of manifests, the first of them with number `index`. -/
def addManifests (index : Nat) (definitions : Definitions) :
    List Value → Except Error Definitions
  | [] => .ok definitions
  | v :: rest => do
    if !isManifest v then throw (.otherKind index)
    let m ← (Manifest.ofValue v).mapError fun e => .badManifest index (misfitOf e)
    let definitions ← addVersions m definitions (← m.described)
    addManifests (index + 1) definitions rest

/-- The document of manifests. -/
def toSwagger (documents : List Value) : Except Error Swagger := do
  if documents.isEmpty then throw .noManifest
  let definitions ← addManifests 0 [] documents
  return {
    swagger := "2.0"
    info := some { title := "Kubernetes CRD Swagger", version := "v0.1.0" }
    definitions := Assoc.put definitions objectMetaName objectMeta }

end KclModels.Crd
