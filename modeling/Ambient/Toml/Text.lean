import Ambient.Json.StringReader

/-! Texts of TOML: the four kinds of string, comments and white space. A reader gives nothing when
the text is not what it should be. -/
namespace Ambient.Toml

abbrev Reader (α : Type) := List Char → Option (α × List Char)

def isBlank (c : Char) : Bool := c == ' ' || c == '\t'

def skipBlanks (cs : List Char) : List Char := cs.dropWhile isBlank

/-- Characters that stand for themselves: all but the controls other than the tab. -/
def isPlain (c : Char) : Bool := c == '\t' || (0x20 ≤ c.toNat && c.toNat ≠ 0x7f)

/-- The text after a line ending, if one comes first. -/
def newline? : List Char → Option (List Char)
  | '\n' :: r => some r
  | '\r' :: '\n' :: r => some r
  | _ => none

def skipComment : List Char → List Char
  | '#' :: r => r.dropWhile isPlain
  | cs => cs

/-- The rest of a line that holds nothing more than a comment. -/
def endOfLine? (cs : List Char) : Option (List Char) :=
  match skipComment (skipBlanks cs) with
  | [] => some []
  | r => newline? r

/-- The text after spaces, line endings and comments; a comment ends in a line ending. -/
def skipLines : List Char → Option (List Char)
  | [] => some []
  | c :: r =>
    if isBlank c || c == '\n' then skipLines r
    else if c = '\r' then
      (if r.head? = some '\n' then skipLines r else none)
    else if c = '#' then
      match h : r.dropWhile isPlain with
      | [] => none
      | d :: rest =>
        have : (d :: rest).length ≤ r.length := h ▸ (List.dropWhile_sublist _).length_le
        if d = '\n' ∨ d = '\r' then skipLines (d :: rest) else none
    else some (c :: r)
termination_by cs => cs.length
decreasing_by all_goals simp_all; try omega

def hexNumber? (digits : List Char) : Option Nat :=
  digits.foldlM (fun n c => (Json.hexValue? c).map (n * 16 + ·)) 0

/-- A code point of so many hexadecimal digits, which is no surrogate. -/
def readCodePoint (count : Nat) : Reader Char := fun cs =>
  if cs.length < count then none
  else (hexNumber? (cs.take count)).bind fun n =>
    if n.isValidChar then some (Char.ofNat n, cs.drop count) else none

def simpleEscape? : Char → Option Char
  | 'b' => some '\x08'
  | 't' => some '\t'
  | 'n' => some '\n'
  | 'f' => some '\x0c'
  | 'r' => some '\r'
  | '"' => some '"'
  | '\\' => some '\\'
  | _ => none

/-- What follows a backslash. -/
def readEscape : Reader Char
  | 'u' :: r => readCodePoint 4 r
  | 'U' :: r => readCodePoint 8 r
  | c :: r => (simpleEscape? c).map (·, r)
  | [] => none

theorem readEscape_length_lt {cs r : List Char} {c : Char} (h : readEscape cs = some (c, r)) :
    r.length < cs.length := by
  unfold readEscape at h
  split at h
  · unfold readCodePoint at h
    split at h
    · simp at h
    · simp [Option.bind_eq_some_iff] at h
      obtain ⟨_, _, _, _, rfl⟩ := h
      simp only [List.length_cons, List.length_drop]; omega
  · unfold readCodePoint at h
    split at h
    · simp at h
    · simp [Option.bind_eq_some_iff] at h
      obtain ⟨_, _, _, _, rfl⟩ := h
      simp only [List.length_cons, List.length_drop]; omega
  · simp at h
    obtain ⟨_, _, _, rfl⟩ := h
    simp
  · simp at h

def prepend (c : Char) (read : Option (List Char × List Char)) :
    Option (List Char × List Char) :=
  read.map fun (text, rest) => (c :: text, rest)

/-- A string on one line, after its opening quote. -/
def readBasic : Reader (List Char)
  | [] => none
  | '"' :: r => some ([], r)
  | '\\' :: r =>
    match h : readEscape r with
    | none => none
    | some (c, rest) =>
      have := readEscape_length_lt h
      prepend c (readBasic rest)
  | c :: r => if isPlain c then prepend c (readBasic r) else none
termination_by cs => cs.length
decreasing_by all_goals simp; try omega

def readLiteral : Reader (List Char)
  | [] => none
  | '\'' :: r => some ([], r)
  | c :: r => if isPlain c then prepend c (readLiteral r) else none

def skipBlankLines : List Char → List Char
  | '\r' :: '\n' :: r => skipBlankLines r
  | c :: r => if isBlank c || c == '\n' then skipBlankLines r else c :: r
  | [] => []

/-- The text after a backslash at the end of a line: further blanks and line endings go too. -/
def joinLine? (cs : List Char) : Option (List Char) :=
  (newline? (skipBlanks cs)).map skipBlankLines

theorem newline?_length_lt {cs r : List Char} (h : newline? cs = some r) :
    r.length < cs.length := by
  unfold newline? at h
  split at h <;> simp at h <;> subst h <;> simp only [List.length_cons] <;> omega

theorem skipBlankLines_length_le (cs : List Char) : (skipBlankLines cs).length ≤ cs.length := by
  fun_induction skipBlankLines cs <;> simp_all <;> omega

theorem joinLine?_length_lt {cs r : List Char} (h : joinLine? cs = some r) :
    r.length < cs.length := by
  unfold joinLine? at h
  simp at h
  obtain ⟨a, ha, rfl⟩ := h
  have h1 := newline?_length_lt ha
  have h2 : (skipBlanks cs).length ≤ cs.length := (List.dropWhile_sublist _).length_le
  have h3 := skipBlankLines_length_le a
  omega

/-- Three quotes close a long string; one or two more in front of them belong to it. -/
def closing? (quote : Char) (cs : List Char) : Option (List Char × List Char) :=
  let run := (cs.takeWhile (· == quote)).length
  if run < 3 then none
  else
    let extra := min (run - 3) 2
    some (List.replicate extra quote, cs.drop (extra + 3))

/-- A string over several lines, after its opening quotes. -/
def readLongBasic : Reader (List Char)
  | [] => none
  | c :: r =>
    match closing? '"' (c :: r) with
    | some found => some found
    | none =>
      if c = '\\' then
        match hj : joinLine? r with
        | some rest =>
          have := joinLine?_length_lt hj
          readLongBasic rest
        | none =>
          match he : readEscape r with
          | none => none
          | some (d, rest) =>
            have := readEscape_length_lt he
            prepend d (readLongBasic rest)
      else if c = '\r' then
        match r with
        | '\n' :: rest => prepend '\n' (readLongBasic rest)
        | _ => none
      else if isPlain c || c == '\n' then prepend c (readLongBasic r)
      else none
termination_by cs => cs.length
decreasing_by all_goals simp; try omega

def readLongLiteral : Reader (List Char)
  | [] => none
  | c :: r =>
    match closing? '\'' (c :: r) with
    | some found => some found
    | none =>
      if c = '\r' then
        match r with
        | '\n' :: rest => prepend '\n' (readLongLiteral rest)
        | _ => none
      else if isPlain c || c == '\n' then prepend c (readLongLiteral r)
      else none

def dropNewline (cs : List Char) : List Char := (newline? cs).getD cs

/-- A string of any kind. -/
def readString : Reader (List Char)
  | '"' :: '"' :: '"' :: r => readLongBasic (dropNewline r)
  | '\'' :: '\'' :: '\'' :: r => readLongLiteral (dropNewline r)
  | '"' :: r => readBasic r
  | '\'' :: r => readLiteral r
  | _ => none

end Ambient.Toml
