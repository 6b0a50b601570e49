import Ambient.Failure
import Ambient.Text.Graphic

/-! Failures as they are shown: a fault in a file with the line it lies on and a mark under the
character. A fault at the end of a line reaches over to the next one. -/
namespace Ambient.Diagnostic

/-- The offsets of the character at an offset: its first byte and the byte after it. An offset
inside a character means that character; at the end of the text there is none. -/
def spanAt (offset : Nat) : List Char → Nat × Nat
  | [] => (0, 0)
  | c :: r =>
    if offset < c.utf8Size then (0, c.utf8Size)
    else
      let (start, stop) := spanAt (offset - c.utf8Size) r
      (c.utf8Size + start, c.utf8Size + stop)

/-- A line that holds an offset: its number, the bytes of it before the offset, and the lines from
it on, without their line feeds. -/
structure Spot where
  number : Nat
  column : Nat
  line : List Char
  after : List (List Char)
  deriving DecidableEq, Repr

def spotIn (number offset : Nat) : List (List Char) → Spot
  | [] => ⟨number, offset, [], []⟩
  | [line] => ⟨number, offset, line, []⟩
  | line :: next :: more =>
    if offset ≤ Text.byteLength line then ⟨number, offset, line, next :: more⟩
    else spotIn (number + 1) (offset - Text.byteLength line - 1) (next :: more)

def spot (text : List Char) (offset : Nat) : Spot :=
  spotIn 1 offset (Text.pieces (· == '\n') text)

/-- A character of a line as it is shown: the bytes before it and the columns it takes. -/
structure Cell where
  index : Nat
  columns : Nat
  char : Char

def tabWidth : Nat := 4

def cellsFrom (index column : Nat) : List Char → List Cell
  | [] => []
  | c :: r =>
    let columns := if c = '\t' then tabWidth - column % tabWidth else Text.columns c
    ⟨index, columns, c⟩ :: cellsFrom (index + c.utf8Size) (column + columns) r

def cells (line : List Char) : List Cell := cellsFrom 0 0 line

def repeated (n : Nat) (c : Char) : List Char := List.replicate n c

/-- A line with spaces in place of tabs. -/
def shown (line : List Char) : List Char :=
  (cells line).flatMap fun cell =>
    if cell.char = '\t' then repeated cell.columns ' ' else [cell.char]

/-- A line without what ends it. -/
def trimLine (line : List Char) : List Char :=
  Text.dropEndWhile (fun c => c == '\n' || c == '\r' || c == '\x00') line

/-- The marks under the bytes from `start` to before `stop`, with one column for a mark right after
the line. -/
def marks (start stop : Nat) (line : List Char) : List Char :=
  let behind : Cell := ⟨Text.byteLength line, 1, '\x00'⟩
  (cells line ++ [behind]).flatMap fun cell =>
    if start < cell.index + cell.char.utf8Size ∧ cell.index < stop then repeated cell.columns '^'
    else if cell.index < stop then repeated cell.columns ' '
    else []

def note : String := " error occurs here\n"

def numbered (width number : Nat) : String :=
  let digits := toString number
  String.ofList (repeated (width - digits.length) ' ') ++ digits ++ " │"

def unnumbered (width : Nat) : String := String.ofList (repeated width ' ') ++ " │"

def text (line : List Char) : String := String.ofList line

/-- A line with marks under it. -/
def oneLine (width : Nat) (s : Spot) (length : Nat) : String :=
  let line := trimLine s.line
  let stop := s.column + max length 1
  unnumbered width ++ "\n" ++
    numbered width s.number ++ " " ++ text (shown line) ++ "\n" ++
    unnumbered width ++ " " ++ text (marks s.column stop line) ++ note

/-- A line and the next one, joined by a bracket from the end of the first. -/
def twoLines (width : Nat) (s : Spot) (next : List Char) : String :=
  let line := trimLine s.line
  let startsLine := s.column ≤ Text.byteLength (line.takeWhile Text.isBlank)
  let reach := (cells line).foldl (fun n cell => n + cell.columns) 0
  unnumbered width ++ "  \n" ++
    numbered width s.number ++ (if startsLine then " ╭" else "  ") ++ " " ++ text (shown line) ++
    "\n" ++
    (if startsLine then ""
      else unnumbered width ++ " ╭" ++ text (repeated reach '─') ++ "^\n") ++
    numbered width (s.number + 1) ++ " │ " ++ text (shown (trimLine next)) ++ "\n" ++
    unnumbered width ++ " ╰^" ++ note

/-- The characters of a line that end within its first `n` bytes, as a column that counts from
one. -/
def columnNumber (s : Spot) : Nat := (Text.takeBytes s.column s.line).length + 1

/-- A message about the character at an offset of a file. -/
def excerpt (path : Path) (source : String) (message : String) (offset : Nat) : String :=
  let cs := source.toList
  let (start, stop) := spanAt offset cs
  let s := spot cs start
  let last :=
    if start < stop ∧ Text.byteLength s.line ≤ s.column then s.number + 1 else s.number
  let width := (toString last).length
  "error: " ++ message ++ "\n" ++ text (repeated width ' ') ++ " ┌─ " ++ path.text ++ ":" ++
    toString s.number ++ ":" ++ toString (columnNumber s) ++ "\n" ++
    (if last = s.number then oneLine width s (stop - start)
      else twoLines width s (s.after.headD [])) ++ "\n"

end Diagnostic

/-- A failure as it is shown, in its file where it has a place there. -/
def Failure.report : Failure → String
  | .source path text fault =>
    Diagnostic.excerpt path text fault.cause.message (fault.pos text.utf8ByteSize)
  | f@(.document path text fault) =>
    match fault.offset text.toList with
    | some offset => Diagnostic.excerpt path text (fault.message text.toList) offset
    | none => "error: " ++ f.message ++ "\n"
  | f => "error: " ++ f.message ++ "\n"

end Ambient
