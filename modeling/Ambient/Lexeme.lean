import Ambient.Token
import Ambient.Text.Alphabetic
import Ambient.Text.Blank
import Ambient.Text.Bytes

/-! Cutting C# source into lexemes: tokens and `///` documentation lines, each with the byte span it
takes. White space, byte order marks, other comments and `#` lines lie between the lexemes.
Each reader returns what it read and the text after it. Expressions are not understood: operators
come one character at a time, and an unclosed literal or comment runs to the end. -/
namespace Ambient

inductive Piece where
  | token (t : Token)
  | doc (line : String)
  deriving DecidableEq, Repr

structure Lexeme where
  piece : Piece
  start : Nat
  stop : Nat
  deriving DecidableEq, Repr

namespace Lexeme

def isWordStart (c : Char) : Bool := Text.isAlphabetic c || c == '_'

def isWordPart (c : Char) : Bool := Text.isAlphanumeric c || c == '_'

/-- The text that a backslash and the character after it stand for. -/
def escaped (c : Char) : List Char :=
  match c with
  | 'n' => ['\n']
  | 't' => ['\t']
  | 'r' => ['\r']
  | '0' => [Char.ofNat 0]
  | '\\' => ['\\']
  | '"' => ['"']
  | '\'' => ['\'']
  | c => ['\\', c]

def readQuoted : List Char → List Char × List Char
  | [] => ([], [])
  | ['\\'] => ([], [])
  | '\\' :: c :: r =>
    let (text, rest) := readQuoted r
    (escaped c ++ text, rest)
  | c :: r =>
    if c = '"' then ([], r)
    else
      let (text, rest) := readQuoted r
      (c :: text, rest)

/-- A doubled quote stands for one quote; there are no other escapes. -/
def readVerbatim : List Char → List Char × List Char
  | [] => ([], [])
  | '"' :: '"' :: r =>
    let (text, rest) := readVerbatim r
    ('"' :: text, rest)
  | c :: r =>
    if c = '"' then ([], r)
    else
      let (text, rest) := readVerbatim r
      (c :: text, rest)

/-- Up to three quotes; further quotes right after them belong to the closing row. -/
def readRaw : List Char → List Char × List Char
  | [] => ([], [])
  | '"' :: '"' :: '"' :: r => ([], r.dropWhile (· == '"'))
  | c :: r =>
    let (text, rest) := readRaw r
    (c :: text, rest)

def skipCharacter : List Char → List Char
  | [] => []
  | ['\\'] => []
  | '\\' :: _ :: r => skipCharacter r
  | c :: r => if c = '\'' then r else skipCharacter r

def skipBlock : List Char → List Char
  | [] => []
  | '*' :: '/' :: r => r
  | _ :: r => skipBlock r

def isAsciiAlphanumeric (c : Char) : Bool := c.isAlpha || c.isDigit

/-- The rest of a number. A sign belongs to it only after the exponent letter of a number that is
not hexadecimal, a point only before a digit. -/
def readNumber (hexadecimal : Bool) : List Char → List Char × List Char
  | [] => ([], [])
  | [c] => if isAsciiAlphanumeric c || c == '_' then ([c], []) else ([], [c])
  | c :: d :: r =>
    if isAsciiAlphanumeric c || c == '_' then
      if (c == 'e' || c == 'E') && !hexadecimal && (d == '+' || d == '-') then
        let (text, rest) := readNumber hexadecimal r
        (c :: d :: text, rest)
      else
        let (text, rest) := readNumber hexadecimal (d :: r)
        (c :: text, rest)
    else if c == '.' && d.isDigit then
      let (text, rest) := readNumber hexadecimal (d :: r)
      (c :: text, rest)
    else ([], c :: d :: r)

def startsHexadecimal (first : Char) : List Char → Bool
  | c :: _ => first == '0' && (c == 'x' || c == 'X')
  | [] => false

def wordToken (word : List Char) : Token :=
  match Keyword.ofSpelling? (String.ofList word) with
  | some k => .keyword k
  | none => .ident (String.ofList word)

def skipLine (cs : List Char) : List Char := cs.dropWhile (· != '\n')

/-- A documentation line without the carriage returns at its end. -/
def docLine (cs : List Char) : String :=
  String.ofList (Text.dropEndWhile (· == '\r') (cs.takeWhile (· != '\n')))

def textPiece (read : List Char × List Char) : Option Piece × List Char :=
  (some (.token (.text (String.ofList read.1))), read.2)

def markPiece (m : Mark) (r : List Char) : Option Piece × List Char :=
  (some (.token (.mark m)), r)

def opPiece (c : Char) (r : List Char) : Option Piece × List Char :=
  (some (.token (.op c)), r)

/-- What a slash opens: three slashes and no fourth a documentation line. -/
def readSlash (r : List Char) : Option Piece × List Char :=
  match r with
  | '/' :: '/' :: '/' :: r => (none, skipLine r)
  | '/' :: '/' :: r => (some (.doc (docLine r)), skipLine r)
  | '/' :: r => (none, skipLine r)
  | '*' :: r => (none, skipBlock r)
  | r => opPiece '/' r

def readQuote (r : List Char) : Option Piece × List Char :=
  match r with
  | '"' :: '"' :: r => textPiece (readRaw r)
  | r => textPiece (readQuoted r)

/-- An at sign before a word makes it a name even if it is spelled like a keyword. -/
def readAt (r : List Char) : Option Piece × List Char :=
  match r with
  | [] => opPiece '@' []
  | c :: r =>
    if c = '"' then textPiece (readVerbatim r)
    else if isWordStart c then
      (some (.token (.ident (String.ofList (c :: r.takeWhile isWordPart)))), r.dropWhile isWordPart)
    else opPiece '@' (c :: r)

def readDollar (r : List Char) : Option Piece × List Char :=
  match r with
  | '"' :: r => textPiece (readQuoted r)
  | '@' :: r => textPiece (readVerbatim r.tail)
  | r => opPiece '$' r

def readColon (r : List Char) : Option Piece × List Char :=
  match r with
  | ':' :: r => markPiece .doubleColon r
  | r => markPiece .colon r

def readEquals (r : List Char) : Option Piece × List Char :=
  match r with
  | '>' :: r => markPiece .arrow r
  | '=' :: r => opPiece '=' r
  | r => markPiece .equals r

def readWord (c : Char) (r : List Char) : Option Piece × List Char :=
  if c.isDigit then
    let (text, rest) := readNumber (startsHexadecimal c r) r
    (some (.token (.number (String.ofList (c :: text)))), rest)
  else if isWordStart c then
    (some (.token (wordToken (c :: r.takeWhile isWordPart))), r.dropWhile isWordPart)
  else opPiece c r

/-- Reads on from a character that is not white space. A comment or a `#` line gives no piece;
`fresh` says that only white space precedes the character on its line. -/
def read (fresh : Bool) (c : Char) (r : List Char) : Option Piece × List Char :=
  match c with
  | '(' => markPiece .openParen r
  | ')' => markPiece .closeParen r
  | '\x7b' => markPiece .openBrace r
  | '\x7d' => markPiece .closeBrace r
  | '[' => markPiece .openBracket r
  | ']' => markPiece .closeBracket r
  | '<' => markPiece .openAngle r
  | '>' => markPiece .closeAngle r
  | ',' => markPiece .comma r
  | ';' => markPiece .semicolon r
  | '.' => markPiece .dot r
  | '?' => markPiece .question r
  | '~' => markPiece .tilde r
  | '*' => markPiece .star r
  | '-' => markPiece .minus r
  | ':' => readColon r
  | '=' => readEquals r
  | '#' => if fresh then (none, skipLine r) else opPiece '#' r
  | '/' => readSlash r
  | '"' => readQuote r
  | '@' => readAt r
  | '$' => readDollar r
  | '\'' => (some (.token .character), skipCharacter r)
  | c => readWord c r

theorem readQuoted_length_le (cs : List Char) : (readQuoted cs).2.length ≤ cs.length := by
  fun_induction readQuoted cs <;> simp_all <;> omega

theorem readVerbatim_length_le (cs : List Char) : (readVerbatim cs).2.length ≤ cs.length := by
  fun_induction readVerbatim cs <;> simp_all <;> omega

theorem dropWhile_length_le {α : Type} (p : α → Bool) (xs : List α) :
    (xs.dropWhile p).length ≤ xs.length :=
  (List.dropWhile_sublist p).length_le

theorem readRaw_length_le (cs : List Char) : (readRaw cs).2.length ≤ cs.length := by
  fun_induction readRaw cs with
  | case1 => simp
  | case2 r => have := dropWhile_length_le (· == '"') r; simp; omega
  | case3 => simp_all; omega

theorem skipCharacter_length_le (cs : List Char) : (skipCharacter cs).length ≤ cs.length := by
  fun_induction skipCharacter cs <;> simp_all <;> omega

theorem skipBlock_length_le (cs : List Char) : (skipBlock cs).length ≤ cs.length := by
  fun_induction skipBlock cs <;> simp_all <;> omega

theorem readNumber_length_le (hexadecimal : Bool) (cs : List Char) :
    (readNumber hexadecimal cs).2.length ≤ cs.length := by
  fun_induction readNumber hexadecimal cs <;> simp_all <;> omega

theorem skipLine_length_le (cs : List Char) : (skipLine cs).length ≤ cs.length :=
  dropWhile_length_le _ cs

theorem readSlash_length_le (r : List Char) : (readSlash r).2.length ≤ r.length := by
  unfold readSlash
  split
  · rename_i r; have := skipLine_length_le r; simp; omega
  · rename_i r _; have := skipLine_length_le r; simp; omega
  · rename_i r _ _; have := skipLine_length_le r; simp; omega
  · rename_i r; have := skipBlock_length_le r; simp; omega
  · simp [opPiece]

theorem readQuote_length_le (r : List Char) : (readQuote r).2.length ≤ r.length := by
  unfold readQuote
  split
  · rename_i r; have := readRaw_length_le r; simp [textPiece]; omega
  · exact readQuoted_length_le r

theorem readAt_length_le (r : List Char) : (readAt r).2.length ≤ r.length := by
  unfold readAt
  split
  · simp [opPiece]
  · rename_i c r
    have := readVerbatim_length_le r
    have := dropWhile_length_le isWordPart r
    repeat' split
    all_goals simp [textPiece, opPiece]; try omega

theorem readDollar_length_le (r : List Char) : (readDollar r).2.length ≤ r.length := by
  unfold readDollar
  split
  · rename_i r; have := readQuoted_length_le r; simp [textPiece]; omega
  · rename_i r; have := readVerbatim_length_le r.tail; simp [textPiece] at *; omega
  · simp [opPiece]

theorem readWord_length_le (c : Char) (r : List Char) :
    (readWord c r).2.length ≤ r.length := by
  unfold readWord
  have := readNumber_length_le (startsHexadecimal c r) r
  have := dropWhile_length_le isWordPart r
  repeat' split
  all_goals simp_all [opPiece]

theorem read_length_le (fresh : Bool) (c : Char) (r : List Char) :
    (read fresh c r).2.length ≤ r.length := by
  have := skipLine_length_le r
  have := readSlash_length_le r
  have := readQuote_length_le r
  have := readAt_length_le r
  have := readDollar_length_le r
  have := skipCharacter_length_le r
  have := readWord_length_le c r
  have hc : (readColon r).2.length ≤ r.length := by
    unfold readColon; split <;> simp [markPiece]
  have he : (readEquals r).2.length ≤ r.length := by
    unfold readEquals; split <;> simp [markPiece, opPiece]
  unfold read
  split <;> try assumption
  split <;> simp_all [opPiece]

/-- The lexemes of the text that begins at byte `start`. -/
def scan (fresh : Bool) (start : Nat) : List Char → List Lexeme
  | [] => []
  | c :: r =>
    if c = '\n' then scan true (start + 1) r
    else if Text.isBlank c || c == '\ufeff' then scan fresh (start + c.utf8Size) r
    else
      match _h : read fresh c r with
      | (piece?, rest) =>
        let stop := start + (Text.byteLength (c :: r) - Text.byteLength rest)
        match piece? with
        | some piece => ⟨piece, start, stop⟩ :: scan false stop rest
        | none => scan false stop rest
termination_by cs => cs.length
decreasing_by
  · simp
  · simp
  all_goals
    have shorter := read_length_le fresh c r
    rw [_h] at shorter
    simp only [List.length_cons] at shorter ⊢
    omega

def ofText (text : String) : List Lexeme := scan true 0 text.toList

end Lexeme

/-- A token with the documentation lines that stand directly before it. -/
structure Item where
  token : Token
  docs : List String
  start : Nat
  stop : Nat
  deriving DecidableEq, Repr

namespace Item

def ofLexemes : List String → List Lexeme → List Item
  | _, [] => []
  | docs, ⟨.doc line, _, _⟩ :: r => ofLexemes (docs ++ [line]) r
  | docs, ⟨.token t, start, stop⟩ :: r => ⟨t, docs, start, stop⟩ :: ofLexemes [] r

def ofText (text : String) : List Item := ofLexemes [] (Lexeme.ofText text)

end Item

end Ambient
