import Ambient.Text.Search

/-! Types as C# source writes them. -/
namespace Ambient

inductive TypeSyntax where
  | named (name : String) (args : List TypeSyntax)
  | array (element : TypeSyntax)
  | nullable (inner : TypeSyntax)
  | tuple (items : List TypeSyntax)
  deriving Repr, Inhabited

namespace TypeSyntax

mutual
def display : TypeSyntax → String
  | named name args =>
    if args.isEmpty then name else name ++ "<" ++ ", ".intercalate (displays args) ++ ">"
  | array element => display element ++ "[]"
  | nullable inner => display inner ++ "?"
  | tuple items => "(" ++ ", ".intercalate (displays items) ++ ")"

def displays : List TypeSyntax → List String
  | [] => []
  | ty :: more => display ty :: displays more
end

/-- The last segment of a qualified name. -/
def lastSegment (name : String) : String :=
  String.ofList (Text.lastPiece (· == '.') name.toList)

def simpleName : TypeSyntax → Option String
  | named name _ => some (lastSegment name)
  | _ => none

def isNullable : TypeSyntax → Bool
  | nullable _ => true
  | _ => false

end TypeSyntax

end Ambient
