import Ambient.Json.Decode
import Ambient.Json.Value
import Ambient.Sidecar

/-! Sidecar metadata as a JSON document. Reading puts the homes of types in order and keeps the
first of each name. -/
namespace Ambient

open Json

namespace TypeHome

structure Draft where
  typeName : Option String
  projectName : Option String
  itemName : Option String

def shape : RecordShape Draft TypeHome where
  title := "ReferenceMetadata"
  fields :=
    [.make "TypeName" ["typeName"] (·.typeName) (fun d s => { d with typeName := some s })
      Node.asText,
     .make "ProjectName" ["projectName"] (·.projectName)
      (fun d s => { d with projectName := some s }) Node.asText,
     .make "ProjectItemName" ["projectItemName"] (·.itemName)
      (fun d s => { d with itemName := some s }) Node.asText]
  draft := ⟨none, none, none⟩
  finish d := .ok ⟨d.typeName.getD "", d.projectName.getD "", d.itemName.getD ""⟩

def toJson (h : TypeHome) : Value :=
  .object
    [("TypeName", .text h.typeName), ("ProjectName", .text h.projectName),
     ("ProjectItemName", .text h.itemName)]

end TypeHome

namespace Sidecar

structure Draft where
  customName : Option (Option String)
  copyPaths : Option (List String)
  homes : Option (List TypeHome)

/-- A record whose lists nest `depth` levels at most. -/
def shape (depth : Nat) : RecordShape Draft Sidecar where
  title := "DefinitionMapData"
  fields :=
    [.make "CustomName" ["customName"] (·.customName)
      (fun d s => { d with customName := some s }) Node.asOptionalText,
     .make "CopyPaths" ["copyPaths"] (·.copyPaths)
      (fun d s => { d with copyPaths := some s }) (Node.asList depth Node.asText),
     .make "ReferenceMetadata" ["referenceMetadata"] (·.homes)
      (fun d s => { d with homes := some s })
      (Node.asList depth (TypeHome.shape.decode (depth - 1)))]
  draft := ⟨none, none, none⟩
  finish d := .ok ⟨d.customName.getD none, d.copyPaths.getD [], d.homes.getD []⟩

def parseJson (text : String) : Decoded Sidecar :=
  (decodeText ((shape (maxDepth - 1)).decode maxDepth) text).map fun s =>
    { s with homes := settle s.homes }

def toJson (s : Sidecar) : Value :=
  .object
    [("CustomName", .ofOption s.customName), ("CopyPaths", .texts s.copyPaths),
     ("ReferenceMetadata", .array (s.homes.map TypeHome.toJson))]

/-- The text of a sidecar file. -/
def jsonText (s : Sidecar) : String := s.toJson.pretty

end Sidecar

end Ambient
