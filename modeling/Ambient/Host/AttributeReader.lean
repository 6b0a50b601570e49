import Ambient.Host
import Ambient.Skip
import Ambient.Text.Blank

/-! Reading qualified names and attribute lists. An argument that is one string literal is kept
decoded, any other as the text that was written. -/
namespace Ambient.Host

/-- The source text of the items between `ts` and its tail `rest`, without white space around. -/
def writtenText (src : List Char) (ts rest : List Item) : String :=
  let taken := ts.take (ts.length - rest.length)
  match taken.head?, taken.getLast? with
  | some first, some last =>
    String.ofList (Text.trim (Text.slice src first.start last.stop))
  | _, _ => ""

/-- An expression as written, up to what ends it. -/
def writtenExpression (src : List Char) (generics : Bool) (ts : List Item) : Left String ts :=
  ⟨writtenText src ts (Skip.expression generics .outside ts),
    Skip.expression generics .outside ts, Skip.expression_short generics .outside ts⟩

def readDotted (name : String) (ts : List Item) : Read (Left String ts) :=
  match ts with
  | [] => .ok (.keep name [])
  | t :: r =>
    if t.token = .mark .dot then
      match readName r with
      | .error e => .error e
      | .ok ⟨segment, after, h⟩ =>
        (readDotted (name ++ "." ++ segment) after).map fun l => ((l.past h).behind t).left
    else .ok (.keep name (t :: r))
termination_by ts.length
decreasing_by simp only [Shorter, List.length_cons] at *; omega

def readQualifiedName (ts : List Item) : Read (Step String ts) :=
  have hg := dropGlobal_short ts
  match readName (dropGlobal ts) with
  | .error e => .error e
  | .ok ⟨name, after, h⟩ => (readDotted name after).map fun l => (l.past h).within hg

def isNameBefore (ms : List Mark) (ts : List Item) : Bool :=
  match Item.token? ts, Item.ahead 1 ts with
  | some (.ident _), some (.mark m) => ms.contains m
  | _, _ => false

/-- The name in front of an attribute argument, if it has one. -/
def readArgumentName (ts : List Item) : Left (Option String) ts :=
  match ts with
  | [] => .keep none []
  | t :: r =>
    match t.token with
    | .ident name =>
      if isNameBefore [.equals, .colon] (t :: r) then ((Left.tail (some name) r).behind t).left
      else .keep none (t :: r)
    | _ => .keep none (t :: r)

def readArgumentValue (src : List Char) (ts : List Item) : Left String ts :=
  match ts with
  | [] => writtenExpression src true []
  | t :: r =>
    match t.token with
    | .text value =>
      if Item.isMark .comma r || Item.isMark .closeParen r then (Step.one value t r).left
      else writtenExpression src true (t :: r)
    | _ => writtenExpression src true (t :: r)

/-- Arguments through the closing parenthesis. -/
def readArguments (src : List Char) (ts : List Item) : Read (Step (List Argument) ts) :=
  match readArgumentName ts with
  | ⟨name, afterName, hn⟩ =>
    match readArgumentValue src afterName with
    | ⟨_, [], _⟩ => faultAt (.expectedMark .comma) []
    | ⟨value, t :: r, hv⟩ =>
      if t.token = .mark .closeParen then
        .ok (((Step.one [⟨name, value⟩] t r).within hv).within hn)
      else if t.token = .mark .comma then
        (readArguments src r).map fun s =>
          (((s.map (⟨name, value⟩ :: ·)).behind t).within hv).within hn
      else faultAt (.expectedMark .comma) (t :: r)
termination_by ts.length
decreasing_by simp only [Short, List.length_cons] at *; omega

/-- The argument list of an attribute, empty if no parenthesis opens one. -/
def readArgumentList (src : List Char) (ts : List Item) : Read (Left (List Argument) ts) :=
  match ts with
  | [] => .ok (.keep [] [])
  | t :: r =>
    if t.token = .mark .openParen then
      if Item.isMark .closeParen r then .ok ((Left.tail [] r).behind t).left
      else (readArguments src r).map fun s => (s.behind t).left
    else .ok (.keep [] (t :: r))

/-- The attributes of one list through the closing bracket. -/
def readAttributes (src : List Char) (ts : List Item) : Read (Step (List Attribute) ts) :=
  match readQualifiedName ts with
  | .error e => .error e
  | .ok ⟨name, afterName, hn⟩ =>
    match readArgumentList src afterName with
    | .error e => .error e
    | .ok ⟨args, after, h⟩ =>
      if Item.isMark .comma after then
        have ht := short_tail after
        (readAttributes src after.tail).map fun s =>
          (((s.map (⟨name, args⟩ :: ·)).within ht).within h).past hn
      else (readMark .closeBracket after).map fun s =>
        ((s.map fun _ => [⟨name, args⟩]).within h).past hn
termination_by ts.length
decreasing_by omega

def dropTarget (ts : List Item) : List Item :=
  if isNameBefore [.colon] ts then ts.drop 2 else ts

theorem dropTarget_short (ts : List Item) : Short (dropTarget ts) ts := by
  unfold dropTarget
  split
  · exact .of_suffix (List.drop_suffix 2 ts)
  · exact short_self ts

/-- All attribute lists in front of a declaration. -/
def readAttributeLists (src : List Char) (ts : List Item) :
    Read (Left (List Attribute) ts) :=
  match ts with
  | [] => .ok (.keep [] [])
  | t :: r =>
    if t.token = .mark .openBracket then
      have ht := dropTarget_short r
      match readAttributes src (dropTarget r) with
      | .error e => .error e
      | .ok ⟨attributes, after, h⟩ =>
        (readAttributeLists src after).map fun l =>
          ((((l.map (attributes ++ ·)).past h).within ht).behind t).left
    else .ok (.keep [] (t :: r))
termination_by ts.length
decreasing_by simp only [Short, Shorter, List.length_cons] at *; omega

end Ambient.Host
