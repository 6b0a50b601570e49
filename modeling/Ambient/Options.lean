/-! The settings of a generation run. -/
namespace Ambient

structure Options where
  camelCaseEnumerationValues : Bool
  camelCasePropertyNames : Bool
  camelCaseTypeNames : Bool
  defaultModuleName : String
  classInsteadOfInterface : Bool
  globalScope : Bool
  assumeExternalType : Bool
  keepReferencesUnchanged : Bool
  includeSourceExtension : Bool
  generatedFileExtension : String
  deriving DecidableEq, Repr

namespace Options

def default : Options where
  camelCaseEnumerationValues := false
  camelCasePropertyNames := true
  camelCaseTypeNames := false
  defaultModuleName := "Server.Dtos"
  classInsteadOfInterface := false
  globalScope := false
  assumeExternalType := false
  keepReferencesUnchanged := false
  includeSourceExtension := true
  generatedFileExtension := ".d.ts"

instance : Inhabited Options := ⟨default⟩

end Options

end Ambient
