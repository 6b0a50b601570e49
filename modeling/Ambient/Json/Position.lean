import Ambient.Text.Blank
import Ambient.Text.Bytes

/-! Lines and columns of a text. Lines count from one. The column of a byte is the number of bytes
of its line through that byte, so the first byte of a line has column one. -/
namespace Ambient.Json

/-- The lines of a text, each with the line feed that ends it. -/
def wholeLines : List Char → List (List Char)
  | [] => []
  | c :: r =>
    if c = '\n' then ['\n'] :: wholeLines r
    else match wholeLines r with
      | [] => [[c]]
      | line :: more => (c :: line) :: more

/-- The offset of a column in the line `index` lines further on: at most the end of that line, line
feed included, and the end of the text if there is no such line. -/
def offsetIn (start column : Nat) : Nat → List (List Char) → Nat
  | _, [] => start
  | 0, line :: _ => start + min (column - 1) (Text.byteLength line)
  | index + 1, line :: more => offsetIn (start + Text.byteLength line) column index more

/-- The byte offset of a line and column; there is no line zero. -/
def lineColumnOffset (cs : List Char) (line column : Nat) : Option Nat :=
  match line with
  | 0 => none
  | index + 1 => some (offsetIn 0 column index (wholeLines cs))

structure Position where
  line : Nat
  column : Nat
  deriving DecidableEq, Repr

/-- The position that `n` bytes lead to. -/
def Position.after (cs : List Char) (n : Nat) : Position :=
  let read := Text.takeBytes n cs
  let before := Text.dropEndWhile (· != '\n') read
  ⟨1 + read.count '\n', n - Text.byteLength before⟩

end Ambient.Json
