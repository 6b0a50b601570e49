import Ambient.Host.MemberReader

/-! Reading the types of a C# file. Class bodies nest; the body of an interface is passed over, and
the base of an enum is not a base. A namespace declaration without braces holds for the rest of the
body it stands in. -/
namespace Ambient.Host

/-- A type declaration up to its body. -/
structure Header where
  kind : Kind
  name : String
  parameters : List Member
  bases : List String

def declaredKind? : Token → Option Kind
  | .keyword .classKw | .keyword .structKw | .keyword .recordKw => some .classKind
  | .keyword .interfaceKw => some .interfaceKind
  | .keyword .enumKw => some .enumKind
  | _ => none

def isClassOrStruct (t : Option Token) : Bool :=
  t == some (.keyword .classKw) || t == some (.keyword .structKw)

/-- The keyword that declares a type; the second one of `record class` and `record struct` too. -/
def readKind (ts : List Item) : Read (Step Kind ts) :=
  match ts with
  | [] => faultAt .expectedDeclaration []
  | t :: r =>
    match declaredKind? t.token with
    | none => faultAt .expectedDeclaration (t :: r)
    | some kind =>
      if t.token = .keyword .recordKw ∧ isClassOrStruct (Item.token? r) then
        .ok ((Left.tail kind r).behind t)
      else .ok (.one kind t r)

def skipGroupAt (opening closing : Mark) (ts : List Item) : List Item :=
  if Item.isMark opening ts then Skip.wholeGroup opening closing ts.tail else ts

theorem skipGroupAt_short (opening closing : Mark) (ts : List Item) :
    Short (skipGroupAt opening closing ts) ts := by
  unfold skipGroupAt
  split
  · exact (Skip.wholeGroup_short opening closing ts.tail).trans (short_tail ts)
  · exact short_self ts

def passGroup (opening closing : Mark) (ts : List Item) : Left Unit ts :=
  ⟨(), skipGroupAt opening closing ts, skipGroupAt_short opening closing ts⟩

def readParameterList (src : List Char) (ts : List Item) : Read (Left (List Member) ts) :=
  match ts with
  | [] => .ok (.keep [] [])
  | t :: r =>
    if t.token = .mark .openParen then
      if Item.isMark .closeParen r then .ok ((Left.tail [] r).behind t).left
      else (readParameters src r).map fun s => (s.behind t).left
    else .ok (.keep [] (t :: r))

/-- Bases as written, without the arguments a record passes to its base. -/
def readBases (src : List Char) (ts : List Item) : Read (Step (List String) ts) :=
  match readWrittenType src ts with
  | .error e => .error e
  | .ok ⟨base, afterType, ht⟩ =>
    match passGroup .openParen .closeParen afterType with
    | ⟨_, [], hg⟩ => .ok ((Left.keep [base] []).within hg |>.past ht)
    | ⟨_, t :: r, hg⟩ =>
      if t.token = .mark .comma then
        (readBases src r).map fun s => (((s.map (base :: ·)).behind t).within hg).past ht
      else .ok (((Left.keep [base] (t :: r)).within hg).past ht)
termination_by ts.length
decreasing_by simp only [Short, Shorter, List.length_cons] at *; omega

def readBaseList (src : List Char) (ts : List Item) : Read (Left (List String) ts) :=
  match ts with
  | [] => .ok (.keep [] [])
  | t :: r =>
    if t.token = .mark .colon then (readBases src r).map fun s => (s.behind t).left
    else .ok (.keep [] (t :: r))

/-- Passes over the constraints on type parameters. -/
def skipConstraints (ts : List Item) : List Item :=
  if Item.isKeyword .whereKw ts then
    ts.dropWhile fun t => t.token ≠ .mark .openBrace && t.token ≠ .mark .semicolon
  else ts

theorem skipConstraints_short (ts : List Item) : Short (skipConstraints ts) ts := by
  unfold skipConstraints
  split
  · exact .of_suffix (List.dropWhile_suffix _)
  · exact short_self ts

def passConstraints (ts : List Item) : Left Unit ts :=
  ⟨(), skipConstraints ts, skipConstraints_short ts⟩

def readHeader (src : List Char) (ts : List Item) : Read (Step Header ts) :=
  match readKind ts with
  | .error e => .error e
  | .ok ⟨kind, afterKind, hk⟩ =>
    match readName afterKind with
    | .error e => .error e
    | .ok ⟨name, afterName, hn⟩ =>
      match passGroup .openAngle .closeAngle afterName with
      | ⟨_, afterGroup, hg⟩ =>
        match readParameterList src afterGroup with
        | .error e => .error e
        | .ok ⟨parameters, afterParameters, hp⟩ =>
          (readBaseList src afterParameters).map fun ⟨bases, afterBases, hb⟩ =>
            let bases := if kind = .enumKind then [] else bases
            let header := (passConstraints afterBases).map fun _ =>
              (⟨kind, name, parameters, bases⟩ : Header)
            ((((header.within hb).within hp).within hg).past hn).past hk

/-- The members and nested types of a body. -/
structure Body where
  members : List Member
  nested : List TypeDecl

def Body.empty : Body := ⟨[], []⟩

def Body.addNested (decl : TypeDecl) (body : Body) : Body := ⟨body.members, decl :: body.nested⟩

def Body.addMembers (members : List Member) (body : Body) : Body :=
  ⟨members ++ body.members, body.nested⟩

/-- The declaration that a header with its documentation, attributes and body makes. -/
def Header.declare (header : Header) (space : String) (lead : Lead) (body : Body) : TypeDecl where
  name := header.name
  space := space
  kind := header.kind
  bases := header.bases
  summary := Summary.ofDocs lead.docs
  members := header.parameters ++ body.members
  nested := body.nested
  attributes := lead.attributes

/-- Whether a class member is a nested type. -/
def startsNestedType (ts : List Item) : Bool :=
  match Item.token? ts with
  | some (.keyword .recordKw) =>
    isClassOrStruct (Item.ahead 1 ts) || (Item.ahead 1 ts).any Skip.isIdent
  | some (.keyword k) => [.classKw, .structKw, .interfaceKw, .enumKw].contains k
  | _ => false

mutual
/-- A type declaration after its attributes and modifiers. -/
def readType (src : List Char) (space : String) (lead : Lead) (ts : List Item) :
    Read (Step TypeDecl ts) :=
  match readHeader src ts with
  | .error e => .error e
  | .ok ⟨header, afterHeader, hh⟩ =>
    if Item.isMark .semicolon afterHeader then
      .ok ((Left.tail (header.declare space lead .empty) afterHeader).past hh)
    else match readMark .openBrace afterHeader with
      | .error e => .error e
      | .ok ⟨_, inside, hi⟩ =>
        match header.kind with
        | .interfaceKind =>
          have hs := Skip.braces_short inside
          let decl := Left.semicolon (header.declare space lead .empty) (Skip.braces inside)
          .ok (((decl.within hs).past hi).past hh)
        | .enumKind =>
          (readEnumValues src inside).map fun ⟨values, rest, h⟩ =>
            let decl := Left.semicolon (header.declare space lead ⟨values, []⟩) rest
            ((decl.past h).past hi).past hh
        | .classKind =>
          (readClassBody src header.name space inside).map fun ⟨body, rest, h⟩ =>
            let decl := Left.semicolon (header.declare space lead body) rest
            ((decl.past h).past hi).past hh
termination_by 2 * ts.length
decreasing_by omega

/-- The body of a class through its closing brace. -/
def readClassBody (src : List Char) (typeName space : String) (ts : List Item) :
    Read (Step Body ts) :=
  match ts with
  | [] => faultAt (fun _ => .unterminatedType typeName) []
  | t :: r =>
    if t.token = .mark .closeBrace then .ok (.one .empty t r)
    else if t.token = .mark .semicolon then
      (readClassBody src typeName space r).map (·.behind t)
    else match readLead src (t :: r) with
      | .error e => .error e
      | .ok ⟨lead, afterLead, hl⟩ =>
        match readModifiers .absent afterLead with
        | ⟨modifiers, start, hm⟩ =>
          if startsNestedType start then
            match readType src space lead start with
            | .error e => .error e
            | .ok ⟨decl, after, hd⟩ =>
              (readClassBody src typeName space after).map fun s =>
                (((s.map (·.addNested decl)).past hd).within hm).within hl
          else match readMember src typeName lead modifiers start with
            | .error e => .error e
            | .ok ⟨members, after, hd⟩ =>
              (readClassBody src typeName space after).map fun s =>
                (((s.map (·.addMembers members)).past hd).within hm).within hl
termination_by 2 * ts.length + 1
decreasing_by all_goals simp only [Short, Shorter, List.length_cons] at *; omega
end

/-- What a namespace body adds to its file. -/
inductive Part where
  | imported (space : String)
  | declared (decl : TypeDecl)

def isGlobalAttribute (ts : List Item) : Bool :=
  Item.isMark .openBracket ts &&
    (Item.ahead 1 ts == some (.ident "assembly") || Item.ahead 1 ts == some (.ident "module")) &&
    Item.ahead 2 ts == some (.mark .colon)

def isGlobalUsing (ts : List Item) : Bool :=
  Item.token? ts == some (.ident "global") && Item.ahead 1 ts == some (.keyword .usingKw)

/-- A using directive after its keyword. Static imports and aliases import no namespace. -/
def readUsing (ts : List Item) : Read (Left (List Part) ts) :=
  if Item.isKeyword .staticKw ts || Item.ahead 1 ts == some (.mark .equals) then
    .ok (Skip.passMember [] ts)
  else if Item.isMark .openParen ts then faultAt (fun _ => .usingStatement) ts
  else match readQualifiedName ts with
    | .error e => .error e
    | .ok ⟨space, after, h⟩ =>
      (readMark .semicolon after).map fun s => ((s.map fun _ => [.imported space]).past h).left

/-- A type or delegate at namespace level. -/
def readTopLevel (src : List Char) (space : String) (ts : List Item) :
    Read (Step (List Part) ts) :=
  match readLead src ts with
  | .error e => .error e
  | .ok ⟨lead, afterLead, hl⟩ =>
    match readModifiers .absent afterLead with
    | ⟨_, [], _⟩ => faultAt .expectedDeclaration []
    | ⟨_, t :: r, hm⟩ =>
      if t.token = .keyword .delegateKw then
        .ok ((((Skip.passMember [] r).behind t).within hm).within hl)
      else (readType src space lead (t :: r)).map fun s =>
        ((s.map fun decl => [.declared decl]).within hm).within hl

/-- What follows the keyword of a using directive, which may have `global` before it. -/
def afterUsing (t : Item) (r : List Item) : List Item :=
  if t.token = .keyword .usingKw then r else r.tail

theorem afterUsing_short (t : Item) (r : List Item) : Short (afterUsing t r) r := by
  unfold afterUsing
  split
  · exact short_self r
  · exact short_tail r

/-- The body of the namespace `space`, of which `braced` says that a brace has to close it. -/
def readNamespaceBody (src : List Char) (space : String) (braced : Bool) (ts : List Item) :
    Read (Left (List Part) ts) :=
  match ts with
  | [] => if braced then faultAt (fun _ => .unterminatedNamespace) [] else .ok (.keep [] [])
  | t :: r =>
    if braced ∧ t.token = .mark .closeBrace then .ok ((Left.semicolon [] r).behind t).left
    else if t.token = .mark .semicolon then
      (readNamespaceBody src space braced r).map fun l => (l.behind t).left
    else if t.token = .keyword .usingKw ∨ isGlobalUsing (t :: r) then
      have ha := afterUsing_short t r
      match readUsing (afterUsing t r) with
      | .error e => .error e
      | .ok ⟨imported, after, hu⟩ =>
        (readNamespaceBody src space braced after).map fun l =>
          ((((l.map (imported ++ ·)).within hu).within ha).behind t).left
    else if t.token = .keyword .externKw then
      have hs := Skip.wholeMember_short r
      (readNamespaceBody src space braced (Skip.wholeMember r)).map fun l =>
        ((l.within hs).behind t).left
    else if t.token = .keyword .namespaceKw then
      match readQualifiedName r with
      | .error e => .error e
      | .ok ⟨name, afterName, hn⟩ =>
        if Item.isMark .semicolon afterName then
          have ht := short_tail afterName
          (readNamespaceBody src (qualify space name) braced afterName.tail).map fun l =>
            (((l.within ht).past hn).behind t).left
        else match readMark .openBrace afterName with
          | .error e => .error e
          | .ok ⟨_, inside, hi⟩ =>
            match readNamespaceBody src (qualify space name) true inside with
            | .error e => .error e
            | .ok ⟨inner, after, ha⟩ =>
              (readNamespaceBody src space braced after).map fun l =>
                (((((l.map (inner ++ ·)).within ha).past hi).past hn).behind t).left
    else if isGlobalAttribute (t :: r) then
      have hg := Skip.wholeGroup_short .openBracket .closeBracket r
      (readNamespaceBody src space braced (Skip.wholeGroup .openBracket .closeBracket r)).map
        fun l => ((l.within hg).behind t).left
    else match readTopLevel src space (t :: r) with
      | .error e => .error e
      | .ok ⟨declared, after, hd⟩ =>
        (readNamespaceBody src space braced after).map fun l =>
          ((l.map (declared ++ ·)).past hd).left
termination_by ts.length
decreasing_by all_goals simp only [Short, Shorter, List.length_cons] at *; omega

def Part.imported? : Part → Option String
  | imported space => some space
  | declared _ => none

def Part.declared? : Part → Option TypeDecl
  | imported _ => none
  | declared decl => some decl

/-- Reads a C# source. -/
def File.parse (path : Path) (text : String) : Read File :=
  match readNamespaceBody text.toList "" false (Item.ofText text) with
  | .error e => .error e
  | .ok parts =>
    .ok ⟨path, parts.value.filterMap Part.imported?, parts.value.filterMap Part.declared?, []⟩

end Ambient.Host
