import Ambient.Host.AttributeReader
import Ambient.Summary
import Ambient.TypeSyntax.Reader

/-! Reading modifiers, enum values, record parameters, accessors and class members. Only public
instance properties with a readable getter and public instance fields are members; methods,
constructors, operators, indexers, events and delegates are passed over. -/
namespace Ambient.Host

structure Modifiers where
  isPublic : Bool
  isRestricted : Bool
  isStatic : Bool
  isConst : Bool
  deriving DecidableEq, Repr

namespace Modifiers

def absent : Modifiers := ⟨false, false, false, false⟩

def exported (m : Modifiers) : Bool :=
  m.isPublic && !m.isRestricted && !m.isStatic && !m.isConst

/-- The modifiers with `k` added, if `k` is a modifier. -/
def add? (m : Modifiers) (k : Keyword) : Option Modifiers :=
  match k with
  | .publicKw => some { m with isPublic := true }
  | .privateKw | .protectedKw | .internalKw => some { m with isRestricted := true }
  | .staticKw => some { m with isStatic := true }
  | .constKw => some { m with isConst := true }
  | .readonlyKw | .abstractKw | .sealedKw | .virtualKw | .overrideKw | .newKw | .externKw
  | .unsafeKw | .volatileKw | .requiredKw | .partialKw => some m
  | _ => none

end Modifiers

/-- Modifiers as far as they go; `partial` before a parenthesis is a name. -/
def readModifiers (m : Modifiers) (ts : List Item) : Left Modifiers ts :=
  match ts with
  | [] => .keep m []
  | t :: r =>
    match t.token with
    | .keyword k =>
      if k = .partialKw ∧ Item.isMark .openParen r then .keep m (t :: r)
      else match m.add? k with
        | some m => ((readModifiers m r).behind t).left
        | none => .keep m (t :: r)
    | _ => .keep m (t :: r)

/-- Attribute lists with the documentation before or after them. -/
structure Lead where
  docs : List String
  attributes : List Attribute

def readLead (src : List Char) (ts : List Item) : Read (Left Lead ts) :=
  match readAttributeLists src ts with
  | .error e => .error e
  | .ok ⟨attributes, rest, h⟩ =>
    let docs := if (Item.docsAt ts).isEmpty then Item.docsAt rest else Item.docsAt ts
    .ok ⟨⟨docs, attributes⟩, rest, h⟩

def plainMember (name typeName : String) (summary : Option String)
    (attributes : List Attribute) : Member :=
  ⟨name, typeName, none, summary, attributes⟩

/-- A type and the text it is written as. -/
def readWrittenType (src : List Char) (ts : List Item) : Read (Step String ts) :=
  match TypeSyntax.read ts with
  | .error e => .error e
  | .ok ⟨_, rest, h⟩ => .ok ⟨writtenText src ts rest, rest, h⟩

/-- The initializer of an enum value as written. -/
def readInitializer (src : List Char) (ts : List Item) : Left (Option String) ts :=
  match ts with
  | [] => .keep none []
  | t :: r =>
    if t.token = .mark .equals then
      (((writtenExpression src false r).map some).behind t).left
    else .keep none (t :: r)

/-- The values of an enum through its closing brace. -/
def readEnumValues (src : List Char) (ts : List Item) : Read (Step (List Member) ts) :=
  match readLead src ts with
  | .error e => .error e
  | .ok ⟨_, [], _⟩ => faultAt .expectedName []
  | .ok ⟨lead, t :: r, hl⟩ =>
    if t.token = .mark .closeBrace then .ok ((Step.one [] t r).within hl)
    else match readName (t :: r) with
      | .error e => .error e
      | .ok ⟨name, afterName, hn⟩ =>
        match readInitializer src afterName with
        | ⟨_, [], _⟩ => faultAt (.expectedMark .closeBrace) []
        | ⟨init, u :: q, hi⟩ =>
          let value : Member := ⟨name, "", init, Summary.ofDocs lead.docs, lead.attributes⟩
          if u.token = .mark .comma then
            (readEnumValues src q).map fun s =>
              ((((s.map (value :: ·)).behind u).within hi).past hn).within hl
          else if u.token = .mark .closeBrace then
            .ok ((((Step.one [value] u q).within hi).past hn).within hl)
          else faultAt (.expectedMark .closeBrace) (u :: q)
termination_by ts.length
decreasing_by simp only [Short, Shorter, List.length_cons] at *; omega

def isParameterModifier : Token → Bool
  | .ident word => ["ref", "out", "in", "params"].contains word
  | .keyword .thisKw => true
  | _ => false

/-- Passes over the default value of a parameter, field or property. -/
def skipDefault (ts : List Item) : List Item :=
  if Item.isMark .equals ts then Skip.expression true .outside ts.tail else ts

theorem skipDefault_short (ts : List Item) : Short (skipDefault ts) ts := by
  unfold skipDefault
  split
  · exact (Skip.expression_short true .outside ts.tail).trans (short_tail ts)
  · exact short_self ts

def passDefault (ts : List Item) : Left Unit ts := ⟨(), skipDefault ts, skipDefault_short ts⟩

def dropParameterModifiers (ts : List Item) : List Item :=
  ts.dropWhile fun t => isParameterModifier t.token

theorem dropParameterModifiers_short (ts : List Item) :
    Short (dropParameterModifiers ts) ts :=
  .of_suffix (List.dropWhile_suffix _)

/-- Record parameters through the closing parenthesis; each is a member. -/
def readParameters (src : List Char) (ts : List Item) : Read (Step (List Member) ts) :=
  match readAttributeLists src ts with
  | .error e => .error e
  | .ok ⟨attributes, afterLists, hl⟩ =>
    have hm := dropParameterModifiers_short afterLists
    match readWrittenType src (dropParameterModifiers afterLists) with
    | .error e => .error e
    | .ok ⟨typeName, afterType, ht⟩ =>
      match readName afterType with
      | .error e => .error e
      | .ok ⟨name, afterName, hn⟩ =>
        match passDefault afterName with
        | ⟨_, [], _⟩ => faultAt (.expectedMark .comma) []
        | ⟨_, t :: r, hd⟩ =>
          let parameter := plainMember name typeName none attributes
          if t.token = .mark .closeParen then
            .ok ((((((Step.one [parameter] t r).within hd).past hn).past ht).within hm).within hl)
          else if t.token = .mark .comma then
            (readParameters src r).map fun s =>
              let more := ((s.map (parameter :: ·)).behind t).within hd
              (((more.past hn).past ht).within hm).within hl
          else faultAt (.expectedMark .comma) (t :: r)
termination_by ts.length
decreasing_by simp only [Short, Shorter, List.length_cons] at *; omega

/-- Accessors through the closing brace; tells whether one of them is a getter without an access
modifier of its own. -/
def readAccessors (src : List Char) (ts : List Item) : Read (Step Bool ts) :=
  match ts with
  | [] => faultAt (fun _ => .unterminatedAccessors) []
  | t :: r =>
    if t.token = .mark .closeBrace then .ok (.one false t r)
    else match readAttributeLists src (t :: r) with
      | .error e => .error e
      | .ok ⟨_, afterLists, hl⟩ =>
        match readModifiers .absent afterLists with
        | ⟨modifiers, start, hm⟩ =>
          match readName start with
          | .error e => .error e
          | .ok ⟨accessor, body, hb⟩ =>
            let readable := accessor == "get" && !modifiers.isRestricted
            have ht := short_tail body
            have hs := Skip.wholeMember_short body
            match Item.token? body with
            | some (.mark .semicolon) =>
              (readAccessors src body.tail).map fun s =>
                ((((s.map (readable || ·)).within ht).past hb).within hm).within hl
            | some (.mark .arrow) | some (.mark .openBrace) =>
              (readAccessors src (Skip.wholeMember body)).map fun s =>
                ((((s.map (readable || ·)).within hs).past hb).within hm).within hl
            | found => faultAt (fun _ => .unexpectedInAccessor found accessor) body
termination_by ts.length
decreasing_by all_goals simp only [Short, Shorter, List.length_cons] at *; omega

/-- The names a field declares, through its semicolon. -/
def readFieldNames (name : String) (ts : List Item) : Read (Step (List String) ts) :=
  match passDefault ts with
  | ⟨_, [], _⟩ => faultAt (.expectedMark .semicolon) []
  | ⟨_, t :: r, hd⟩ =>
    if t.token = .mark .comma then
      match readName r with
      | .error e => .error e
      | .ok ⟨next, after, hn⟩ =>
        (readFieldNames next after).map fun s =>
          (((s.map (name :: ·)).past hn).behind t).within hd
    else if t.token = .mark .semicolon then .ok ((Step.one [name] t r).within hd)
    else faultAt (.expectedMark .semicolon) (t :: r)
termination_by ts.length
decreasing_by simp only [Short, Shorter, List.length_cons] at *; omega

/-- A property after its opening brace; tells whether it can be read. -/
def readProperty (src : List Char) (ts : List Item) : Read (Step Bool ts) :=
  match readAccessors src ts with
  | .error e => .error e
  | .ok ⟨readable, after, h⟩ =>
    if Item.isMark .equals after then
      match passDefault after with
      | ⟨_, rest, hd⟩ =>
        (readMark .semicolon rest).map fun s => ((s.map fun _ => readable).within hd).past h
    else .ok ⟨readable, after, h⟩

/-- What follows the type and name of a class member, down to the names it declares. -/
def readMemberTail (src : List Char) (name : String) (ts : List Item) :
    Read (Left (List String) ts) :=
  match Item.token? ts with
  | some (.mark .openParen) | some (.mark .openAngle) | some (.mark .dot) =>
    .ok (Skip.passMember [] ts)
  | some (.mark .openBrace) =>
    have ht := short_tail ts
    (readProperty src ts.tail).map fun s =>
      (s.map fun readable => if readable then [name] else []).left.within ht
  | some (.mark .arrow) => .ok (Skip.passMember [name] ts)
  | some (.mark .equals) | some (.mark .semicolon) | some (.mark .comma) =>
    (readFieldNames name ts).map (·.left)
  | found => faultAt (fun _ => .unexpectedAfterMember found name) ts

/-- A member that declares nothing, seen from its first token. -/
def isUntranslated (typeName : String) (ts : List Item) : Bool :=
  match Item.token? ts with
  | some (.keyword k) =>
    [.delegateKw, .eventKw, .operatorKw, .implicitKw, .explicitKw].contains k
  | some (.mark .tilde) => true
  | some (.ident name) => name == typeName && Item.ahead 1 ts == some (.mark .openParen)
  | _ => false

theorem skip_untranslated_shorter {typeName : String} {ts : List Item}
    (h : isUntranslated typeName ts) : Shorter (Skip.wholeMember ts.tail) ts := by
  cases ts with
  | nil => simp [isUntranslated, Item.token?] at h
  | cons t r => exact (Skip.wholeMember_short r).trans_shorter (shorter_cons t r)

/-- A class member other than a nested type. -/
def readMember (src : List Char) (typeName : String) (lead : Lead) (modifiers : Modifiers)
    (ts : List Item) : Read (Step (List Member) ts) :=
  if h : isUntranslated typeName ts then
    .ok ⟨[], Skip.wholeMember ts.tail, skip_untranslated_shorter h⟩
  else match readWrittenType src ts with
    | .error e => .error e
    | .ok ⟨writtenType, afterType, ht⟩ =>
      if Item.isKeyword .thisKw afterType || Item.isKeyword .operatorKw afterType then
        .ok ((Skip.passMember [] afterType).past ht)
      else match readName afterType with
        | .error e => .error e
        | .ok ⟨name, afterName, hn⟩ =>
          let summary := Summary.ofDocs lead.docs
          let members (names : List String) : List Member :=
            if modifiers.exported then
              names.map fun name => plainMember name writtenType summary lead.attributes
            else []
          (readMemberTail src name afterName).map fun l => ((l.map members).past hn).past ht

end Ambient.Host
