import KclModels.Crd
import KclModels.Document.Json
import KclModels.Yaml.Documents

/-!
# Loading documents

From the text of a file to a document.
-/

namespace KclModels

/-- The format of a text. -/
inductive TextFormat
  | json
  | yaml
deriving DecidableEq, Inhabited, Repr

/-- The format that the extension of a file name stands for. -/
def TextFormat.ofExtension (ext : String) : TextFormat :=
  if ext = "yaml" || ext = "yml" then .yaml else .json

/-- Why a text is not loaded. -/
inductive LoadError
  | malformedJson
  | badYaml
  | misfit (path : List Step) (why : Misfit)
  | crd (e : Crd.Error)
deriving DecidableEq, Inhabited, Repr

namespace LoadError

/-- The fault of a JSON text as an error. -/
def ofFault : Fault → LoadError
  | .malformed => .malformedJson
  | .misfit path why => .misfit path why

/-- The texts of an error, outermost first. -/
def chain : LoadError → List String
  | .malformedJson => ["malformed JSON"]
  | .badYaml => ["bad YAML"]
  | .misfit path why => ["invalid document at '" ++ pathText path ++ "'", why.message]
  | .crd e => e.chain

end LoadError

/-- The node of a YAML text without documents. -/
def emptyDocument : Node := .scalar (.written "" .plain none)

/--
The document that a text holds. What follows a JSON document is not looked at, and a YAML text may
not hold more than one.
-/
def TextFormat.parse (format : TextFormat) (text : String) : Except LoadError Swagger :=
  match format with
  | .json => (Swagger.decode .json (Json.read text).1).mapError .ofFault
  | .yaml =>
    let decode (n : Node) := (Swagger.decode .yaml n).mapError fun _ => .badYaml
    match Yaml.documents? text with
    | some [] => decode emptyDocument
    | some [n] => decode n
    | _ => .error .badYaml

/-- All values that a text holds. Values that are null do not count in YAML. -/
def TextFormat.parseAll (format : TextFormat) (text : String) : Except LoadError (List Value) :=
  match format with
  | .json => do
    let (n, ended) := Json.read text
    let v ← (n.value .json).mapError LoadError.ofFault
    if ended then return [v] else throw .malformedJson
  | .yaml => do
    let some nodes := Yaml.documents? text | throw .badYaml
    let values ← (nodes.mapM (Node.value .yaml)).mapError fun _ => .badYaml
    return values.filter (!·.isNull)

/-- The document of the manifests that a text holds. -/
def TextFormat.parseCrds (format : TextFormat) (text : String) : Except LoadError Swagger := do
  (Crd.toSwagger (← format.parseAll text)).mapError .crd

end KclModels
