import Ambient.Text.Blank
import Ambient.Text.Search

/-! The lines of a text: what stands between line feeds, each without one carriage return that
comes right before its line feed. A line feed at the end opens no empty last line. -/
namespace Ambient.Text

def dropReturn (cs : List Char) : List Char :=
  match cs.reverse with
  | '\r' :: r => r.reverse
  | _ => cs

def linesOf : List (List Char) → List (List Char)
  | [] => []
  | [last] => if last = [] then [] else [last]
  | line :: next :: more => dropReturn line :: linesOf (next :: more)

def lines (cs : List Char) : List (List Char) := linesOf (pieces (· == '\n') cs)

/-- The lines that are not blank, each without white space at its ends. -/
def tidyLines (cs : List Char) : List (List Char) := ((lines cs).map trim).filter (· ≠ [])

end Ambient.Text
