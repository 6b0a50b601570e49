import Ambient.Host.AttributeReader
import Ambient.Proofs.Formatting.Types
import Mathlib.Data.List.Forall2

/-!
# Attributes read side by side

Beside the values of tokens a host file keeps texts as they are written: types, arguments and
initializers. What two such texts have in common is left open here; a `Spelling` says it for each of
the three kinds, and the readers carry it over to whatever they put together.
-/
namespace Ambient

/-- Two sources, and relations between the texts that are kept of the one and of the other. -/
structure Spelling where
  source : List Char
  source' : List Char
  type : String → String → Prop
  value : String → String → Prop
  init : String → String → Prop

namespace Host
variable (S : Spelling)

structure Argument.Alike (a b : Argument) : Prop where
  name : b.name = a.name
  value : S.value a.value b.value

structure Attribute.Alike (a b : Attribute) : Prop where
  name : b.name = a.name
  args : List.Forall₂ (Argument.Alike S) a.args b.args

end Host

namespace Pairing
open Host
variable {p : Pairing} {S : Spelling} {ts us : List Item}

/-- The relations hold between what is written at the same place in the two texts. -/
structure Carries (p : Pairing) (S : Spelling) : Prop where
  docs : ∀ {ts us : List Item}, p.At ts us → Item.docsAt us = Item.docsAt ts
  noType : S.type "" ""
  type : ∀ {ts us : List Item} {s : Step TypeSyntax ts} {s' : Step TypeSyntax us}, p.At ts us →
    TypeSyntax.read ts = .ok s → p.At s.rest s'.rest →
      S.type (writtenText S.source ts s.rest) (writtenText S.source' us s'.rest)
  literal : ∀ value, S.value value (p.literal value)
  value : ∀ {ts us : List Item}, p.At ts us →
    S.value (writtenExpression S.source true ts).value (writtenExpression S.source' true us).value
  init : ∀ {ts us : List Item}, p.At ts us →
    S.init (writtenExpression S.source false ts).value (writtenExpression S.source' false us).value

theorem agree_readDotted {ts us : List Item} (name : String) (h : p.At ts us) :
    p.Agree (p.Lefts Eq) (readDotted name ts) (readDotted name us) := by
  cases spelled : ts with
  | nil =>
    rw [spelled] at h
    obtain rfl := h.nil_right
    rw [readDotted]
    exact .ok ⟨rfl, h⟩
  | cons t r =>
    rw [spelled] at h
    obtain ⟨u, q, rfl, token, rest⟩ := h.cons_right
    rw [readDotted, readDotted]
    simp only [token, Token.retext_eq_mark]
    split
    · have agree := agree_readName rest
      generalize readName r = x at agree ⊢
      generalize readName q = y at agree ⊢
      cases agree with
      | error cause => exact .error cause
      | @ok s s' segment =>
        have taken := s.shorter
        dsimp only
        rw [← segment.1]
        exact (agree_readDotted (name ++ "." ++ s.value) segment.2).map fun _ _ same => same
    · exact .ok ⟨rfl, h⟩
termination_by ts.length
decreasing_by subst spelled; simp only [List.length_cons] at *; omega

theorem agree_readQualifiedName (h : p.At ts us) :
    p.Agree (p.Steps Eq) (readQualifiedName ts) (readQualifiedName us) := by
  rw [readQualifiedName, readQualifiedName]
  have agree := agree_readName (at_dropGlobal h)
  generalize readName (dropGlobal ts) = x at agree ⊢
  generalize readName (dropGlobal us) = y at agree ⊢
  cases agree with
  | error cause => exact .error cause
  | @ok s s' first =>
    dsimp only
    rw [← first.1]
    exact (agree_readDotted s.value first.2).map fun _ _ same => same

theorem isNameBefore_eq (h : p.At ts us) (ms : List Mark) :
    isNameBefore ms us = isNameBefore ms ts := by
  rw [isNameBefore, isNameBefore, h.token?, h.ahead]
  cases Item.token? ts with
  | none => rfl
  | some t =>
    cases t with
    | ident name =>
      cases Item.ahead 1 ts with
      | none => rfl
      | some t' => cases t' <;> rfl
    | _ => rfl

theorem lefts_readArgumentName (h : p.At ts us) :
    p.Lefts Eq (readArgumentName ts) (readArgumentName us) := by
  cases ts with
  | nil =>
    obtain rfl := h.nil_right
    exact ⟨rfl, h⟩
  | cons t r =>
    have before := isNameBefore_eq h [.equals, .colon]
    obtain ⟨u, q, rfl, token, rest⟩ := h.cons_right
    rw [readArgumentName, readArgumentName, token]
    cases t.token with
    | ident name =>
      simp only [Token.retext, before]
      split
      · exact ⟨rfl, rest.tail⟩
      · exact ⟨rfl, h⟩
    | _ => exact ⟨rfl, h⟩

theorem lefts_writtenExpression (carries : p.Carries S) (h : p.At ts us) :
    p.Lefts S.value (writtenExpression S.source true ts) (writtenExpression S.source' true us) :=
  ⟨carries.value h, at_expression true .outside h⟩

theorem lefts_readArgumentValue (carries : p.Carries S) (h : p.At ts us) :
    p.Lefts S.value (readArgumentValue S.source ts) (readArgumentValue S.source' us) := by
  cases ts with
  | nil =>
    obtain rfl := h.nil_right
    exact lefts_writtenExpression carries h
  | cons t r =>
    have written := lefts_writtenExpression carries h
    obtain ⟨u, q, rfl, token, rest⟩ := h.cons_right
    rw [readArgumentValue, readArgumentValue, token]
    cases t.token with
    | text value =>
      simp only [Token.retext, rest.isMark]
      split
      · exact ⟨carries.literal value, rest⟩
      · exact written
    | _ => exact written

theorem agree_readArguments_attribute {ts us : List Item} (carries : p.Carries S) (h : p.At ts us) :
    p.Agree (p.Steps (List.Forall₂ (Argument.Alike S))) (readArguments S.source ts)
      (readArguments S.source' us) := by
  have named := lefts_readArgumentName h
  rw [readArguments, readArguments]
  generalize readArgumentName ts = n at named ⊢
  generalize readArgumentName us = n' at named ⊢
  dsimp only
  have valued := lefts_readArgumentValue carries named.2
  generalize readArgumentValue S.source n.rest = v at valued ⊢
  generalize readArgumentValue S.source' n'.rest = v' at valued ⊢
  obtain ⟨value, after, short⟩ := v
  obtain ⟨value', after', short'⟩ := v'
  have argument : Argument.Alike S ⟨n.value, value⟩ ⟨n'.value, value'⟩ :=
    ⟨named.1.symm, valued.1⟩
  have passed := n.short
  cases after with
  | nil =>
    obtain rfl := valued.2.nil_right
    exact valued.2.faultAt fun _ => rfl
  | cons t r =>
    obtain ⟨u, q, rfl, token, rest⟩ := valued.2.cons_right
    have fewer : r.length < ts.length := Nat.lt_of_lt_of_le short.1 passed.1
    simp only [token, Token.retext_eq_mark]
    split
    · exact .ok ⟨.cons argument .nil, rest⟩
    · split
      · refine (agree_readArguments_attribute carries rest).map ?_
        intro _ _ others
        exact ⟨.cons argument others.1, others.2⟩
      · exact valued.2.faultAt fun _ => rfl
termination_by ts.length
decreasing_by exact fewer

theorem agree_readArgumentList (carries : p.Carries S) (h : p.At ts us) :
    p.Agree (p.Lefts (List.Forall₂ (Argument.Alike S))) (readArgumentList S.source ts)
      (readArgumentList S.source' us) := by
  cases ts with
  | nil =>
    obtain rfl := h.nil_right
    exact .ok ⟨.nil, h⟩
  | cons t r =>
    obtain ⟨u, q, rfl, token, rest⟩ := h.cons_right
    rw [readArgumentList, readArgumentList]
    simp only [token, Token.retext_eq_mark, rest.isMark]
    split
    · split
      · exact .ok ⟨.nil, rest.tail⟩
      · exact (agree_readArguments_attribute carries rest).map fun _ _ same => same
    · exact .ok ⟨.nil, h⟩

theorem agree_readAttributes {ts us : List Item} (carries : p.Carries S) (h : p.At ts us) :
    p.Agree (p.Steps (List.Forall₂ (Attribute.Alike S))) (readAttributes S.source ts)
      (readAttributes S.source' us) := by
  rw [readAttributes, readAttributes]
  have agree := agree_readQualifiedName h
  generalize readQualifiedName ts = x at agree ⊢
  generalize readQualifiedName us = y at agree ⊢
  cases agree with
  | error cause => exact .error cause
  | @ok s s' name =>
    have agree := agree_readArgumentList carries name.2
    dsimp only
    generalize readArgumentList S.source s.rest = x at agree ⊢
    generalize readArgumentList S.source' s'.rest = y at agree ⊢
    cases agree with
    | error cause => exact .error cause
    | @ok l l' args =>
      have described : Attribute.Alike S ⟨s.value, l.value⟩ ⟨s'.value, l'.value⟩ :=
        ⟨name.1.symm, args.1⟩
      have taken := s.shorter
      have passed := l.short
      have tail := short_tail l.rest
      dsimp only
      rw [args.2.isMark]
      split
      · refine (agree_readAttributes carries args.2.tail).map ?_
        intro _ _ others
        exact ⟨.cons described others.1, others.2⟩
      · refine (agree_readMark args.2 .closeBracket).map ?_
        intro _ _ closed
        exact ⟨.cons described .nil, closed.2⟩
termination_by ts.length
decreasing_by omega

theorem at_dropTarget (h : p.At ts us) : p.At (dropTarget ts) (dropTarget us) := by
  unfold dropTarget
  rw [isNameBefore_eq h]
  split
  · exact h.drop 2
  · exact h

theorem agree_readAttributeLists {ts us : List Item} (carries : p.Carries S) (h : p.At ts us) :
    p.Agree (p.Lefts (List.Forall₂ (Attribute.Alike S))) (readAttributeLists S.source ts)
      (readAttributeLists S.source' us) := by
  cases spelled : ts with
  | nil =>
    rw [spelled] at h
    obtain rfl := h.nil_right
    rw [readAttributeLists, readAttributeLists]
    exact .ok ⟨.nil, h⟩
  | cons t r =>
    rw [spelled] at h
    obtain ⟨u, q, rfl, token, rest⟩ := h.cons_right
    rw [readAttributeLists, readAttributeLists]
    simp only [token, Token.retext_eq_mark]
    split
    · have agree := agree_readAttributes carries (at_dropTarget rest)
      generalize readAttributes S.source (dropTarget r) = x at agree ⊢
      generalize readAttributes S.source' (dropTarget q) = y at agree ⊢
      cases agree with
      | error cause => exact .error cause
      | @ok s s' attributes =>
        have taken := s.shorter
        have passed := dropTarget_short r
        refine (agree_readAttributeLists carries attributes.2).map ?_
        intro _ _ others
        exact ⟨List.rel_append attributes.1 others.1, others.2⟩
    · exact .ok ⟨.nil, h⟩
termination_by ts.length
decreasing_by subst spelled; simp only [List.length_cons] at *; omega

end Pairing
end Ambient
