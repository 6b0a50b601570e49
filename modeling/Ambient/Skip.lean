import Ambient.SyntaxFault

/-! Passing over items that declare nothing: bracketed groups, members that are not translated,
and expressions. The end of the text ends each of them without complaint. -/
namespace Ambient.Skip

/-- Through the mark that closes the group, of which `inner` groups are open inside. -/
def group (opening closing : Mark) (inner : Nat) : List Item → List Item
  | [] => []
  | t :: r =>
    if t.token = .mark opening then group opening closing (inner + 1) r
    else if t.token = .mark closing then
      match inner with
      | 0 => r
      | n + 1 => group opening closing n r
    else group opening closing inner r

/-- Past the group whose opening mark was the item before. -/
def wholeGroup (opening closing : Mark) (ts : List Item) : List Item := group opening closing 0 ts

def braces (ts : List Item) : List Item := wholeGroup .openBrace .closeBrace ts

/-- Through the semicolon or the block that ends a member; a brace that closes what is around the
member stays. -/
def member (depth : Nat) : List Item → List Item
  | [] => []
  | t :: r =>
    match t.token with
    | .mark .openParen | .mark .openBracket => member (depth + 1) r
    | .mark .closeParen | .mark .closeBracket => member (depth - 1) r
    | .mark .semicolon => if depth = 0 then r else member depth r
    | .mark .openBrace => if depth = 0 then dropMark .semicolon (braces r) else member depth r
    | .mark .closeBrace => if depth = 0 then t :: r else member depth r
    | _ => member depth r

/-- What an expression is at: open brackets, open type argument lists, and whether the item before
is an identifier. -/
structure Nesting where
  depth : Nat
  angles : Nat
  afterName : Bool

def Nesting.outside : Nesting := ⟨0, 0, false⟩

def isIdent : Token → Bool
  | .ident _ => true
  | _ => false

/-- The nesting after `t`, or nothing if `t` ends the expression: a comma, semicolon or closing
bracket outside all brackets. With `generics`, an angle bracket right after an identifier opens a
list in which commas and semicolons do not count. -/
def Nesting.step? (generics : Bool) (n : Nesting) (t : Token) : Option Nesting :=
  match t with
  | .mark .openParen | .mark .openBracket | .mark .openBrace =>
    some ⟨n.depth + 1, n.angles, false⟩
  | .mark .closeParen | .mark .closeBracket | .mark .closeBrace =>
    if n.depth = 0 then none else some ⟨n.depth - 1, n.angles, false⟩
  | .mark .openAngle =>
    some ⟨n.depth, if generics && n.afterName then n.angles + 1 else n.angles, false⟩
  | .mark .closeAngle => some ⟨n.depth, n.angles - 1, false⟩
  | .mark .comma | .mark .semicolon =>
    if n.depth = 0 ∧ n.angles = 0 then none else some ⟨n.depth, n.angles, false⟩
  | t => some ⟨n.depth, n.angles, isIdent t⟩

/-- Up to the end of an expression; what ends it stays. -/
def expression (generics : Bool) (n : Nesting) : List Item → List Item
  | [] => []
  | t :: r =>
    match n.step? generics t.token with
    | none => t :: r
    | some next => expression generics next r

theorem group_short (opening closing : Mark) (inner : Nat) (ts : List Item) :
    Short (group opening closing inner ts) ts := by
  apply Short.of_suffix
  fun_induction group opening closing inner ts
  case case1 => exact List.suffix_rfl
  case case3 => exact List.suffix_cons _ _
  all_goals exact List.suffix_cons_iff.mpr (.inr ‹_›)

theorem wholeGroup_short (opening closing : Mark) (ts : List Item) :
    Short (wholeGroup opening closing ts) ts :=
  group_short opening closing 0 ts

theorem braces_short (ts : List Item) : Short (braces ts) ts :=
  wholeGroup_short .openBrace .closeBrace ts

theorem member_short (depth : Nat) (ts : List Item) : Short (member depth ts) ts := by
  apply Short.of_suffix
  fun_induction member depth ts
  case case1 => exact List.suffix_rfl
  case case6 => exact List.suffix_cons _ _
  case case8 t r _ =>
    have passed : Short (dropMark .semicolon (braces r)) r :=
      (dropMark_short .semicolon _).trans (braces_short r)
    exact List.suffix_cons_iff.mpr (.inr passed.2)
  case case10 => exact List.suffix_rfl
  all_goals exact List.suffix_cons_iff.mpr (.inr ‹_›)

theorem expression_short (generics : Bool) (n : Nesting) (ts : List Item) :
    Short (expression generics n ts) ts := by
  apply Short.of_suffix
  fun_induction expression generics n ts
  case case3 => exact List.suffix_cons_iff.mpr (.inr ‹_›)
  all_goals exact List.suffix_rfl

/-- Past the member that begins here. -/
def wholeMember (ts : List Item) : List Item := member 0 ts

theorem wholeMember_short (ts : List Item) : Short (wholeMember ts) ts := member_short 0 ts

/-- A value that goes with a member passed over. -/
def passMember {α : Type} (value : α) (ts : List Item) : Left α ts :=
  ⟨value, wholeMember ts, wholeMember_short ts⟩

end Ambient.Skip
