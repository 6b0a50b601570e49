import Ambient.Lexeme

/-! What can be wrong with C# source, and the first steps of reading items: a step takes at least
one item and says so in its type. A fault keeps the byte at which the offending token starts, or
none at the end of the text. -/
namespace Ambient

inductive SyntaxCause where
  | expectedMark (m : Mark) (found : Option Token)
  | expectedEnd (found : Option Token)
  | expectedName (found : Option Token)
  | expectedDeclaration (found : Option Token)
  | unterminatedNamespace
  | unterminatedType (name : String)
  | unterminatedAccessors
  | usingStatement
  | unexpectedAfterMember (found : Option Token) (name : String)
  | unexpectedInAccessor (found : Option Token) (accessor : String)
  deriving DecidableEq, Repr

def SyntaxCause.message : SyntaxCause → String
  | expectedMark m found => "expected " ++ m.label ++ ", found " ++ Token.labelAt found
  | expectedEnd found => "expected Eof, found " ++ Token.labelAt found
  | expectedName found => "expected identifier, found " ++ Token.labelAt found
  | expectedDeclaration found => "expected type declaration, found " ++ Token.labelAt found
  | unterminatedNamespace => "unterminated namespace"
  | unterminatedType name => "unterminated type `" ++ name ++ "`"
  | unterminatedAccessors => "unterminated accessor list"
  | usingStatement => "unexpected using statement at namespace level"
  | unexpectedAfterMember found name =>
    "unexpected " ++ Token.labelAt found ++ " after member `" ++ name ++ "`"
  | unexpectedInAccessor found accessor =>
    "unexpected " ++ Token.labelAt found ++ " in accessor `" ++ accessor ++ "`"

structure SyntaxFault where
  cause : SyntaxCause
  start : Option Nat
  deriving DecidableEq, Repr

/-- The byte at which a fault lies in a text of `length` bytes. -/
def SyntaxFault.pos (fault : SyntaxFault) (length : Nat) : Nat := fault.start.getD length

namespace Item

def token? (ts : List Item) : Option Token := ts.head?.map (·.token)

def start? (ts : List Item) : Option Nat := ts.head?.map (·.start)

/-- The token `n` places ahead. -/
def ahead (n : Nat) (ts : List Item) : Option Token := token? (ts.drop n)

def isMark (m : Mark) (ts : List Item) : Bool := token? ts == some (.mark m)

def isKeyword (k : Keyword) (ts : List Item) : Bool := token? ts == some (.keyword k)

def docsAt (ts : List Item) : List String := (ts.head?.map (·.docs)).getD []

end Item

abbrev Read (α : Type) := Except SyntaxFault α

def faultAt {α : Type} (cause : Option Token → SyntaxCause) (ts : List Item) : Read α :=
  .error ⟨cause (Item.token? ts), Item.start? ts⟩

/-- What remains of `ts` when items at its front are taken, or none. -/
abbrev Short (rest ts : List Item) : Prop := rest.length ≤ ts.length ∧ rest <:+ ts

/-- What remains of `ts` when at least one item at its front is taken. -/
abbrev Shorter (rest ts : List Item) : Prop := rest.length < ts.length ∧ rest <:+ ts

theorem Short.of_suffix {rest ts : List Item} (h : rest <:+ ts) : Short rest ts :=
  ⟨h.length_le, h⟩

theorem Short.trans {a b c : List Item} (h : Short a b) (h' : Short b c) : Short a c :=
  ⟨Nat.le_trans h.1 h'.1, h.2.trans h'.2⟩

theorem Short.trans_shorter {a b c : List Item} (h : Short a b) (h' : Shorter b c) :
    Shorter a c :=
  ⟨Nat.lt_of_le_of_lt h.1 h'.1, h.2.trans h'.2⟩

theorem Shorter.trans_short {a b c : List Item} (h : Shorter a b) (h' : Short b c) :
    Shorter a c :=
  ⟨Nat.lt_of_lt_of_le h.1 h'.1, h.2.trans h'.2⟩

theorem Shorter.short {a b : List Item} (h : Shorter a b) : Short a b :=
  ⟨Nat.le_of_lt h.1, h.2⟩

/-- A value read from `ts` and the items after it, which are fewer. -/
structure Step (α : Type) (ts : List Item) where
  value : α
  rest : List Item
  shorter : Shorter rest ts

/-- The items left after `ts`, which are no more. -/
structure Left (α : Type) (ts : List Item) where
  value : α
  rest : List Item
  short : Short rest ts

theorem shorter_cons (t : Item) (r : List Item) : Shorter r (t :: r) :=
  ⟨Nat.lt_succ_self r.length, List.suffix_cons t r⟩

theorem short_self (ts : List Item) : Short ts ts := .of_suffix List.suffix_rfl

theorem short_tail (ts : List Item) : Short ts.tail ts := .of_suffix (List.tail_suffix ts)

namespace Left
variable {α β : Type} {ts us : List Item}

/-- Takes nothing. -/
def keep (value : α) (ts : List Item) : Left α ts := ⟨value, ts, short_self ts⟩

/-- Takes one item if there is one. -/
def tail (value : α) (ts : List Item) : Left α ts := ⟨value, ts.tail, short_tail ts⟩

def map (f : α → β) (l : Left α ts) : Left β ts := ⟨f l.value, l.rest, l.short⟩

/-- Read from more items, the first of which were taken before. -/
def within (l : Left α us) (h : Short us ts) : Left α ts :=
  ⟨l.value, l.rest, l.short.trans h⟩

def past (l : Left α us) (h : Shorter us ts) : Step α ts :=
  ⟨l.value, l.rest, l.short.trans_shorter h⟩

/-- Read after `t`. -/
def behind (l : Left α us) (t : Item) : Step α (t :: us) := l.past (shorter_cons t us)

end Left

namespace Step
variable {α β : Type} {ts us : List Item}

def one (value : α) (t : Item) (r : List Item) : Step α (t :: r) :=
  ⟨value, r, shorter_cons t r⟩

def left (s : Step α ts) : Left α ts := ⟨s.value, s.rest, s.shorter.short⟩

def map (f : α → β) (s : Step α ts) : Step β ts := ⟨f s.value, s.rest, s.shorter⟩

def within (s : Step α us) (h : Short us ts) : Step α ts :=
  ⟨s.value, s.rest, s.shorter.trans_short h⟩

def past (s : Step α us) (h : Shorter us ts) : Step α ts := s.left.past h

def behind (s : Step α us) (t : Item) : Step α (t :: us) := s.past (shorter_cons t us)

end Step

/-- Names also include the keywords that are reserved only in some places. -/
def nameOf? : Token → Option String
  | .ident name => some name
  | .keyword k =>
    match k with
    | .recordKw | .whereKw | .partialKw | .requiredKw | .implicitKw | .explicitKw =>
      some k.spelling
    | _ => none
  | _ => none

def readName (ts : List Item) : Read (Step String ts) :=
  match ts with
  | [] => faultAt .expectedName []
  | t :: r =>
    match nameOf? t.token with
    | some name => .ok (.one name t r)
    | none => faultAt .expectedName (t :: r)

def readMark (m : Mark) (ts : List Item) : Read (Step Unit ts) :=
  match ts with
  | [] => faultAt (.expectedMark m) []
  | t :: r =>
    if t.token = .mark m then .ok (.one () t r) else faultAt (.expectedMark m) (t :: r)

/-- Without the mark `m` at the front, if it stands there. -/
def dropMark (m : Mark) (ts : List Item) : List Item :=
  if Item.isMark m ts then ts.tail else ts

theorem dropMark_short (m : Mark) (ts : List Item) : Short (dropMark m ts) ts := by
  unfold dropMark
  split
  · exact short_tail ts
  · exact short_self ts

/-- Takes a semicolon if there is one. -/
def Left.semicolon {α : Type} (value : α) (ts : List Item) : Left α ts :=
  ⟨value, dropMark .semicolon ts, dropMark_short .semicolon ts⟩

def isGlobalQualifier (ts : List Item) : Bool :=
  Item.token? ts == some (.ident "global") && Item.ahead 1 ts == some (.mark .doubleColon)

def dropGlobal (ts : List Item) : List Item :=
  if isGlobalQualifier ts then ts.drop 2 else ts

theorem dropGlobal_short (ts : List Item) : Short (dropGlobal ts) ts := by
  unfold dropGlobal
  split
  · exact .of_suffix (List.drop_suffix 2 ts)
  · exact short_self ts

end Ambient
