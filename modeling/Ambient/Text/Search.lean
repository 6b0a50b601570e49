/-! Finding, splitting and replacing in a text. -/
namespace Ambient.Text

/-- The text before the first occurrence of `needle` and the text after it. -/
def cut? (needle : List Char) : List Char → Option (List Char × List Char)
  | [] => if needle = [] then some ([], []) else none
  | c :: r =>
    if needle.isPrefixOf (c :: r) then some ([], (c :: r).drop needle.length)
    else (cut? needle r).map fun (before, after) => (c :: before, after)

/-- The text up to the first character that satisfies `p`, and the text after it. -/
def cutAt? (p : Char → Bool) : List Char → Option (List Char × List Char)
  | [] => none
  | c :: r =>
    if p c then some ([], r) else (cutAt? p r).map fun (before, after) => (c :: before, after)

/-- The pieces between the separators: always one more than there are separators. -/
def pieces (p : Char → Bool) : List Char → List (List Char)
  | [] => [[]]
  | c :: r =>
    if p c then [] :: pieces p r
    else match pieces p r with
      | [] => [[c]]
      | first :: others => (c :: first) :: others

/-- What follows the last separator, or the whole text. -/
def lastPiece (p : Char → Bool) (cs : List Char) : List Char :=
  (cs.reverse.takeWhile fun c => !p c).reverse

/-- Replaces occurrences of `needle` from left to right; `skip` characters are already spent. -/
def replaceFrom (needle new : List Char) : Nat → List Char → List Char
  | _, [] => []
  | skip + 1, _ :: r => replaceFrom needle new skip r
  | 0, c :: r =>
    if needle.isPrefixOf (c :: r) then new ++ replaceFrom needle new (needle.length - 1) r
    else c :: replaceFrom needle new 0 r

def replaceAll (needle new : String) (cs : List Char) : List Char :=
  replaceFrom needle.toList new.toList 0 cs

def joinWith (sep : List Char) : List (List Char) → List Char
  | [] => []
  | [x] => x
  | x :: y :: more => x ++ sep ++ joinWith sep (y :: more)

def startsWith (s lead : String) : Bool := lead.toList.isPrefixOf s.toList

def endsWith (s tail : String) : Bool := tail.toList.isSuffixOf s.toList

end Ambient.Text
