import Ambient.Json.Decode
import Ambient.Json.Value
import Ambient.Options

/-! Options as a JSON object. Each key has three spellings, and a missing key means its default. -/
namespace Ambient.Options

open Json

/-- Options of which some are given. -/
structure Draft where
  camelCaseEnumerationValues : Option Bool
  camelCasePropertyNames : Option Bool
  camelCaseTypeNames : Option Bool
  defaultModuleName : Option String
  classInsteadOfInterface : Option Bool
  globalScope : Option Bool
  assumeExternalType : Option Bool
  keepReferencesUnchanged : Option Bool
  includeSourceExtension : Option Bool
  generatedFileExtension : Option String

def Draft.empty : Draft := ⟨none, none, none, none, none, none, none, none, none, none⟩

def Draft.options (d : Draft) : Options where
  camelCaseEnumerationValues :=
    d.camelCaseEnumerationValues.getD default.camelCaseEnumerationValues
  camelCasePropertyNames := d.camelCasePropertyNames.getD default.camelCasePropertyNames
  camelCaseTypeNames := d.camelCaseTypeNames.getD default.camelCaseTypeNames
  defaultModuleName := d.defaultModuleName.getD default.defaultModuleName
  classInsteadOfInterface := d.classInsteadOfInterface.getD default.classInsteadOfInterface
  globalScope := d.globalScope.getD default.globalScope
  assumeExternalType := d.assumeExternalType.getD default.assumeExternalType
  keepReferencesUnchanged := d.keepReferencesUnchanged.getD default.keepReferencesUnchanged
  includeSourceExtension := d.includeSourceExtension.getD default.includeSourceExtension
  generatedFileExtension := d.generatedFileExtension.getD default.generatedFileExtension

def flag (name : String) (otherNames : List String) (get : Draft → Option Bool)
    (set : Draft → Bool → Draft) : RecordField Draft :=
  .make name otherNames get set Node.asBool

def word (name : String) (otherNames : List String) (get : Draft → Option String)
    (set : Draft → String → Draft) : RecordField Draft :=
  .make name otherNames get set Node.asText

def fields : List (RecordField Draft) :=
  [flag "CamelCaseEnumerationValues"
      ["camelCaseEnumerationValues", "camel_case_enumeration_values"]
      (·.camelCaseEnumerationValues) fun d b => { d with camelCaseEnumerationValues := some b },
   flag "CamelCasePropertyNames" ["camelCasePropertyNames", "camel_case_property_names"]
      (·.camelCasePropertyNames) fun d b => { d with camelCasePropertyNames := some b },
   flag "CamelCaseTypeNames" ["camelCaseTypeNames", "camel_case_type_names"]
      (·.camelCaseTypeNames) fun d b => { d with camelCaseTypeNames := some b },
   word "DefaultModuleName" ["defaultModuleName", "default_module_name"]
      (·.defaultModuleName) fun d s => { d with defaultModuleName := some s },
   flag "ClassInsteadOfInterface" ["classInsteadOfInterface", "class_instead_of_interface"]
      (·.classInsteadOfInterface) fun d b => { d with classInsteadOfInterface := some b },
   flag "GlobalScope" ["globalScope", "global_scope"]
      (·.globalScope) fun d b => { d with globalScope := some b },
   flag "AssumeExternalType" ["assumeExternalType", "assume_external_type"]
      (·.assumeExternalType) fun d b => { d with assumeExternalType := some b },
   flag "KeepReferencesUnchanged" ["keepReferencesUnchanged", "keep_references_unchanged"]
      (·.keepReferencesUnchanged) fun d b => { d with keepReferencesUnchanged := some b },
   flag "IncludeOriginalExtension" ["includeOriginalExtension", "include_original_extension"]
      (·.includeSourceExtension) fun d b => { d with includeSourceExtension := some b },
   word "GeneratedFileExtension" ["generatedFileExtension", "generated_file_extension"]
      (·.generatedFileExtension) fun d s => { d with generatedFileExtension := some s }]

def shape : RecordShape Draft Options where
  title := "Options"
  fields := fields
  draft := .empty
  finish d := .ok d.options

def parseJson (text : String) : Decoded Options := decodeText (shape.decode maxDepth) text

def toJson (o : Options) : Value :=
  .object
    [("CamelCaseEnumerationValues", .bool o.camelCaseEnumerationValues),
     ("CamelCasePropertyNames", .bool o.camelCasePropertyNames),
     ("CamelCaseTypeNames", .bool o.camelCaseTypeNames),
     ("DefaultModuleName", .text o.defaultModuleName),
     ("ClassInsteadOfInterface", .bool o.classInsteadOfInterface),
     ("GlobalScope", .bool o.globalScope),
     ("AssumeExternalType", .bool o.assumeExternalType),
     ("KeepReferencesUnchanged", .bool o.keepReferencesUnchanged),
     ("IncludeOriginalExtension", .bool o.includeSourceExtension),
     ("GeneratedFileExtension", .text o.generatedFileExtension)]

end Ambient.Options
