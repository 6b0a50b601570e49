import Ambient.Options.Json
import Ambient.Toml.Document

/-! Options as a TOML document, with the same keys and the same rules as in JSON. -/
namespace Ambient.Options

/-- A value as a JSON document would hold it; none of the options takes the null that stands for
anything other than a string or a boolean. -/
def nodeOf : Toml.Item → Json.Node
  | .text s => .text 0 0 (.ok s)
  | .bool b => .bool 0 0 b
  | _ => .null 0 0

def parseToml (text : String) : Option Options :=
  (Toml.parse text).bind fun entries =>
    match shape.readFields .empty
      (entries.map fun (key, item) => ⟨.ok key, 0, nodeOf item⟩) with
    | .ok draft => some draft.options
    | .error _ => none

end Ambient.Options
