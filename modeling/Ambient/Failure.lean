import Ambient.FileSystem
import Ambient.Json.Fault
import Ambient.SyntaxFault

/-! Why a run fails. A failed run leaves what was generated before as it is. -/
namespace Ambient

/-- A source or a host document is kept with its text, so that the fault can be shown in it. -/
inductive Failure where
  | source (path : Path) (text : String) (fault : SyntaxFault)
  | document (path : Path) (text : String) (fault : Json.Fault)
  | settings (path : Path) (text : String) (fault : Json.Fault)
  | access (path : Path) (trouble : FileTrouble)
  deriving DecidableEq, Repr

namespace Failure

/-- What is wrong, without the file it is wrong with. -/
def cause : Failure → String
  | source _ _ fault => fault.cause.message
  | document _ text fault | settings _ text fault => fault.message text.toList
  | access _ trouble => trouble.message

def message : Failure → String
  | f@(source path ..) | f@(document path ..) => "failed to parse " ++ path.text ++ ": " ++ f.cause
  | f@(settings path ..) => "malformed override file " ++ path.text ++ ": " ++ f.cause
  | f@(access path _) => "failed to access " ++ path.text ++ ": " ++ f.cause

/-- The message followed by its cause once more, for failures that carry one of their own. -/
def chain : Failure → String
  | f@(settings ..) | f@(access ..) => f.message ++ ": " ++ f.cause
  | f => f.message

end Failure

/-- A copy that could not be written. This is told and hinders nothing else. -/
structure CopyFailure where
  path : Path
  trouble : FileTrouble
  deriving DecidableEq, Repr

def CopyFailure.message (f : CopyFailure) : String :=
  "Could not write file to \"" ++ f.path.text ++ "\"\nReason: " ++ f.trouble.message

end Ambient
