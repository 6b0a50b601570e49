import Ambient.SyntaxFault
import Ambient.TypeSyntax

/-! Reading a type. A name may be qualified by dots and by `::`; type arguments belong to the last
dotted segment that has some. After the core come question marks (never two in a row), array ranks
and stars, of which a star adds nothing. Names of tuple elements are dropped. -/
namespace Ambient.TypeSyntax

def dropCommas (ts : List Item) : List Item := ts.dropWhile (·.token == .mark .comma)

theorem dropCommas_short (ts : List Item) : Short (dropCommas ts) ts :=
  .of_suffix (List.dropWhile_suffix _)

def readSuffixes (core : TypeSyntax) (ts : List Item) : Read (Left TypeSyntax ts) :=
  match ts with
  | [] => .ok (.keep core [])
  | t :: r =>
    match t.token with
    | .mark .question =>
      if core.isNullable then .ok (.keep core (t :: r))
      else (readSuffixes (nullable core) r).map fun l => (l.behind t).left
    | .mark .star => (readSuffixes core r).map fun l => (l.behind t).left
    | .mark .openBracket =>
      if Item.isMark .closeBracket r || Item.isMark .comma r then
        match readMark .closeBracket (dropCommas r) with
        | .error e => .error e
        | .ok ⟨_, after, h⟩ =>
          have hr := dropCommas_short r
          (readSuffixes (array core) after).map fun l => (((l.past h).within hr).behind t).left
      else .ok (.keep core (t :: r))
    | _ => .ok (.keep core (t :: r))
termination_by ts.length
decreasing_by all_goals simp only [Short, Shorter, List.length_cons] at *; omega

/-- Drops the name of a tuple element. -/
def dropElementName (ts : List Item) : List Item :=
  match Item.token? ts with
  | some (.ident _) => ts.tail
  | _ => ts

theorem dropElementName_short (ts : List Item) : Short (dropElementName ts) ts := by
  unfold dropElementName
  split
  · exact short_tail ts
  · exact short_self ts

/-- A dot continues a name only before an identifier. -/
def dotted? (ts : List Item) : Option (Step String ts) :=
  match ts with
  | t :: u :: r =>
    match t.token, u.token with
    | .mark .dot, .ident name => some ((Step.one name u r).behind t)
    | _, _ => none
  | _ => none

mutual
def read (ts : List Item) : Read (Step TypeSyntax ts) :=
  match ts with
  | [] => faultAt .expectedName []
  | t :: r =>
    if t.token = .mark .openParen then
      match readTuple r with
      | .error e => .error e
      | .ok ⟨items, after, h⟩ =>
        (readSuffixes (tuple items) after).map fun l => (l.past h).behind t
    else
      match readNamed (t :: r) with
      | .error e => .error e
      | .ok ⟨core, after, h⟩ => (readSuffixes core after).map (·.past h)
termination_by 5 * ts.length + 1
decreasing_by all_goals grind

/-- The elements of a tuple through the closing parenthesis. -/
def readTuple (ts : List Item) : Read (Step (List TypeSyntax) ts) :=
  match read ts with
  | .error e => .error e
  | .ok ⟨first, after, h⟩ =>
    have hd := dropElementName_short after
    if Item.isMark .closeParen (dropElementName after) then
      .ok (((Left.tail [first] (dropElementName after)).within hd).past h)
    else
      match readMark .comma (dropElementName after) with
      | .error e => .error e
      | .ok ⟨_, next, hn⟩ =>
        (readTuple next).map fun s => (((s.map (first :: ·)).past hn).within hd).past h
termination_by 5 * ts.length + 2
decreasing_by all_goals omega

def readNamed (ts : List Item) : Read (Step TypeSyntax ts) :=
  have hg := dropGlobal_short ts
  match readName (dropGlobal ts) with
  | .error e => .error e
  | .ok ⟨name, after, h⟩ => (readSegments name [] after).map fun l => (l.past h).within hg
termination_by 5 * ts.length + 0
decreasing_by all_goals omega

/-- What follows a name: arguments, then further segments. -/
def readSegments (name : String) (args : List TypeSyntax) (ts : List Item) :
    Read (Left TypeSyntax ts) :=
  match readArguments? args ts with
  | .error e => .error e
  | .ok ⟨args, after, h⟩ =>
    match dotted? after with
    | some ⟨segment, next, hn⟩ =>
      (readSegments (name ++ "." ++ segment) [] next).map fun l => ((l.past hn).within h).left
    | none =>
      if Item.isMark .doubleColon after then
        have ht := short_tail after
        match readName after.tail with
        | .error e => .error e
        | .ok ⟨segment, next, hn⟩ =>
          (readSegments (name ++ "." ++ segment) args next).map fun l =>
            (((l.past hn).within ht).within h).left
      else .ok ⟨named name args, after, h⟩
termination_by 5 * ts.length + 4
decreasing_by all_goals omega

/-- A list of type arguments if an angle bracket opens one, else `args` again. -/
def readArguments? (args : List TypeSyntax) (ts : List Item) :
    Read (Left (List TypeSyntax) ts) :=
  match ts with
  | [] => .ok (.keep args [])
  | t :: r =>
    if t.token = .mark .openAngle then (readArguments r).map fun s => (s.behind t).left
    else .ok (.keep args (t :: r))
termination_by 5 * ts.length + 3
decreasing_by all_goals grind

/-- Type arguments through the closing angle bracket. -/
def readArguments (ts : List Item) : Read (Step (List TypeSyntax) ts) :=
  match read ts with
  | .error e => .error e
  | .ok ⟨first, after, h⟩ =>
    if Item.isMark .closeAngle after then .ok ((Left.tail [first] after).past h)
    else
      match readMark .comma after with
      | .error e => .error e
      | .ok ⟨_, next, hn⟩ =>
        (readArguments next).map fun s => ((s.map (first :: ·)).past hn).past h
termination_by 5 * ts.length + 2
decreasing_by all_goals omega
end

/-- Reads a text that is one type and nothing else. -/
def parse (text : String) : Read TypeSyntax :=
  match read (Item.ofText text) with
  | .error e => .error e
  | .ok ⟨ty, [], _⟩ => .ok ty
  | .ok ⟨_, rest, _⟩ => faultAt .expectedEnd rest

end Ambient.TypeSyntax
