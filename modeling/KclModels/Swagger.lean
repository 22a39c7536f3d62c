import KclModels.Schema.Decode

/-!
# Swagger documents

The parts of a Swagger 2.0 document that models are generated from.
-/

namespace KclModels

/-- What a document says about itself. -/
structure Info where
  title : String := ""
  version : String := ""
  description : Option String := none
deriving DecidableEq, Inhabited, Repr

/-- A Swagger 2.0 document. -/
structure Swagger where
  swagger : String := ""
  info : Option Info := none
  definitions : Definitions := []
deriving Inhabited

namespace Info

/-- The fields of an information object. -/
def slots (how : Reading) : List (Node.Slot Info) :=
  [{ name := "title", read := fun n => (n.string how).map fun v i => { i with title := v } },
   { name := "version", read := fun n => (n.string how).map fun v i => { i with version := v } },
   { name := "description"
     read := fun n => (n.option how (Node.string how)).map fun v i => { i with description := v } }]

end Info

namespace Swagger

/-- The fields of a document. -/
def slots (how : Reading) : List (Node.Slot Swagger) :=
  [{ name := "swagger", read := fun n => (n.string how).map fun v d => { d with swagger := v } },
   { name := "info"
     read := fun n =>
      (n.option how (Node.record how "Info" (Info.slots how) {})).map fun v d => { d with info := v } },
   { name := "definitions"
     read := fun n => (Schema.decodeMap how n).map fun v d => { d with definitions := v } }]

/-- Reads a document. -/
def decode (how : Reading) (n : Node) : Except Fault Swagger :=
  n.record how "SwaggerDocument" (slots how) {}

end Swagger

end KclModels
