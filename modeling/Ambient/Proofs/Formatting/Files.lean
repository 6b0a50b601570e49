import Ambient.Host.FileReader
import Ambient.Proofs.Formatting.Members

/-!
# Files read side by side

The readers of types and namespaces put the same declarations together from both texts: they differ
at most in the texts that are kept as they were written.
-/
namespace Ambient

namespace Host
variable (S : Spelling)

mutual
/-- The same declaration, up to the texts that are kept as written. -/
inductive TypeDecl.Alike : TypeDecl → TypeDecl → Prop
  | mk {name space : String} {kind : Kind} {summary : Option String} {bases bases' : List String}
      {members members' : List Member} {nested nested' : List TypeDecl}
      {attributes attributes' : List Attribute} :
    List.Forall₂ S.type bases bases' → List.Forall₂ (Member.Alike S) members members' →
    AlikeAll nested nested' → List.Forall₂ (Attribute.Alike S) attributes attributes' →
    Alike ⟨name, space, kind, bases, summary, members, nested, attributes⟩
      ⟨name, space, kind, bases', summary, members', nested', attributes'⟩

inductive TypeDecl.AlikeAll : List TypeDecl → List TypeDecl → Prop
  | nil : AlikeAll [] []
  | cons {t u : TypeDecl} {ts us : List TypeDecl} : TypeDecl.Alike t u → AlikeAll ts us →
    AlikeAll (t :: ts) (u :: us)
end

structure Header.Alike (a b : Header) : Prop where
  kind : b.kind = a.kind
  name : b.name = a.name
  parameters : List.Forall₂ (Member.Alike S) a.parameters b.parameters
  bases : List.Forall₂ S.type a.bases b.bases

structure Body.Alike (a b : Body) : Prop where
  members : List.Forall₂ (Member.Alike S) a.members b.members
  nested : TypeDecl.AlikeAll S a.nested b.nested

inductive Part.Alike : Part → Part → Prop
  | imported (space : String) : Part.Alike (.imported space) (.imported space)
  | declared {t u : TypeDecl} : TypeDecl.Alike S t u → Part.Alike (.declared t) (.declared u)

variable {S}

theorem Header.Alike.declare {a b : Header} (h : Header.Alike S a b) (space : String)
    {lead lead' : Lead} (led : Lead.Alike S lead lead') {body body' : Body}
    (inside : Body.Alike S body body') :
    TypeDecl.Alike S (a.declare space lead body) (b.declare space lead' body') := by
  rw [Header.declare, Header.declare, h.name, h.kind, led.docs]
  exact .mk h.bases (List.rel_append h.parameters inside.members) inside.nested led.attributes

theorem Body.Alike.empty : Body.Alike S .empty .empty := ⟨.nil, .nil⟩

end Host

namespace Pairing
open Host
variable {p : Pairing} {S : Spelling} {ts us : List Item}

theorem isClassOrStruct_retext (t : Option Token) :
    isClassOrStruct (t.map (Token.retext p.literal)) = isClassOrStruct t := by
  cases t with
  | none => rfl
  | some t => cases t <;> rfl

theorem agree_readKind (h : p.At ts us) : p.Agree (p.Steps Eq) (readKind ts) (readKind us) := by
  cases ts with
  | nil =>
    obtain rfl := h.nil_right
    exact h.faultAt fun _ => rfl
  | cons t r =>
    obtain ⟨u, q, rfl, token, rest⟩ := h.cons_right
    have same : declaredKind? u.token = declaredKind? t.token := by
      rw [token]
      cases t.token <;> rfl
    rw [readKind, readKind, same]
    cases declaredKind? t.token with
    | none => exact h.faultAt fun _ => rfl
    | some kind =>
      simp only [token, Token.retext_eq_keyword, rest.token?, isClassOrStruct_retext]
      split
      · exact .ok ⟨rfl, rest.tail⟩
      · exact .ok ⟨rfl, rest⟩

theorem at_skipGroupAt (opening closing : Mark) (h : p.At ts us) :
    p.At (skipGroupAt opening closing ts) (skipGroupAt opening closing us) := by
  unfold skipGroupAt
  rw [h.isMark]
  split
  · exact at_wholeGroup opening closing h.tail
  · exact h

theorem lefts_passGroup (opening closing : Mark) (h : p.At ts us) :
    p.Lefts Eq (passGroup opening closing ts) (passGroup opening closing us) :=
  ⟨rfl, at_skipGroupAt opening closing h⟩

theorem agree_readParameterList (carries : p.Carries S) (h : p.At ts us) :
    p.Agree (p.Lefts (List.Forall₂ (Member.Alike S))) (readParameterList S.source ts)
      (readParameterList S.source' us) := by
  cases ts with
  | nil =>
    obtain rfl := h.nil_right
    exact .ok ⟨.nil, h⟩
  | cons t r =>
    obtain ⟨u, q, rfl, token, rest⟩ := h.cons_right
    rw [readParameterList, readParameterList]
    simp only [token, Token.retext_eq_mark, rest.isMark]
    split
    · split
      · exact .ok ⟨.nil, rest.tail⟩
      · exact (agree_readParameters carries rest).map fun _ _ same => same
    · exact .ok ⟨.nil, h⟩

theorem agree_readBases {ts us : List Item} (carries : p.Carries S) (h : p.At ts us) :
    p.Agree (p.Steps (List.Forall₂ S.type)) (readBases S.source ts) (readBases S.source' us) := by
  have agree := agree_readWrittenType carries h
  rw [readBases, readBases]
  generalize readWrittenType S.source ts = x at agree ⊢
  generalize readWrittenType S.source' us = y at agree ⊢
  cases agree with
  | error cause => exact .error cause
  | @ok s s' base =>
    have taken := s.shorter
    have groups := lefts_passGroup .openParen .closeParen base.2
    dsimp only
    generalize passGroup .openParen .closeParen s.rest = g at groups ⊢
    generalize passGroup .openParen .closeParen s'.rest = g' at groups ⊢
    obtain ⟨_, after, short⟩ := g
    obtain ⟨_, after', short'⟩ := g'
    have there : p.At after after' := groups.2
    cases after with
    | nil =>
      obtain rfl := there.nil_right
      exact .ok ⟨.cons base.1 .nil, there⟩
    | cons t r =>
      obtain ⟨u, q, rfl, token, rest⟩ := there.cons_right
      have fewer : r.length < ts.length :=
        Nat.lt_trans (Nat.lt_of_lt_of_le (Nat.lt_succ_self r.length) short.1) taken.1
      simp only [token, Token.retext_eq_mark]
      split
      · refine (agree_readBases carries rest).map ?_
        intro _ _ others
        exact ⟨.cons base.1 others.1, others.2⟩
      · exact .ok ⟨.cons base.1 .nil, there⟩
termination_by ts.length
decreasing_by exact fewer

theorem agree_readBaseList (carries : p.Carries S) (h : p.At ts us) :
    p.Agree (p.Lefts (List.Forall₂ S.type)) (readBaseList S.source ts)
      (readBaseList S.source' us) := by
  cases ts with
  | nil =>
    obtain rfl := h.nil_right
    exact .ok ⟨.nil, h⟩
  | cons t r =>
    obtain ⟨u, q, rfl, token, rest⟩ := h.cons_right
    rw [readBaseList, readBaseList]
    simp only [token, Token.retext_eq_mark]
    split
    · exact (agree_readBases carries rest).map fun _ _ same => same
    · exact .ok ⟨.nil, h⟩

theorem at_skipConstraints (h : p.At ts us) : p.At (skipConstraints ts) (skipConstraints us) := by
  unfold skipConstraints
  rw [h.isKeyword]
  split
  · refine h.dropWhile (fun t => t ≠ .mark .openBrace && t ≠ .mark .semicolon) fun t => ?_
    simp only [ne_eq, Token.retext_eq_mark]
  · exact h

theorem agree_readHeader (carries : p.Carries S) (h : p.At ts us) :
    p.Agree (p.Steps (Header.Alike S)) (readHeader S.source ts) (readHeader S.source' us) := by
  have agree := agree_readKind h
  rw [readHeader, readHeader]
  generalize readKind ts = x at agree ⊢
  generalize readKind us = y at agree ⊢
  cases agree with
  | error cause => exact .error cause
  | @ok k k' kind =>
    have agree := agree_readName kind.2
    dsimp only
    generalize readName k.rest = x at agree ⊢
    generalize readName k'.rest = y at agree ⊢
    cases agree with
    | error cause => exact .error cause
    | @ok n n' name =>
      have groups := lefts_passGroup .openAngle .closeAngle name.2
      dsimp only
      generalize passGroup .openAngle .closeAngle n.rest = g at groups ⊢
      generalize passGroup .openAngle .closeAngle n'.rest = g' at groups ⊢
      have agree := agree_readParameterList carries groups.2
      generalize readParameterList S.source g.rest = x at agree ⊢
      generalize readParameterList S.source' g'.rest = y at agree ⊢
      cases agree with
      | error cause => exact .error cause
      | @ok l l' parameters =>
        dsimp only
        refine (agree_readBaseList carries parameters.2).map ?_
        intro b b' bases
        refine ⟨⟨kind.1.symm, name.1.symm, parameters.1, ?_⟩, at_skipConstraints bases.2⟩
        show List.Forall₂ S.type (if k.value = .enumKind then [] else b.value)
          (if k'.value = .enumKind then [] else b'.value)
        rw [← kind.1]
        split
        · exact .nil
        · exact bases.1

theorem startsNestedType_eq (h : p.At ts us) : startsNestedType us = startsNestedType ts := by
  have second : (Item.ahead 1 us).any Skip.isIdent = (Item.ahead 1 ts).any Skip.isIdent := by
    rw [h.ahead]
    cases Item.ahead 1 ts with
    | none => rfl
    | some t => exact Token.isIdent_retext
  rw [startsNestedType, startsNestedType, second, h.token?, h.ahead, isClassOrStruct_retext]
  cases Item.token? ts with
  | none => rfl
  | some t => cases t <;> rfl

theorem at_braces (h : p.At ts us) : p.At (Skip.braces ts) (Skip.braces us) :=
  at_wholeGroup .openBrace .closeBrace h

mutual
theorem agree_readType {ts us : List Item} (carries : p.Carries S) (space : String)
    {lead lead' : Lead} (led : Lead.Alike S lead lead') (h : p.At ts us) :
    p.Agree (p.Steps (TypeDecl.Alike S)) (readType S.source space lead ts)
      (readType S.source' space lead' us) := by
  have agree := agree_readHeader carries h
  rw [readType, readType]
  generalize readHeader S.source ts = x at agree ⊢
  generalize readHeader S.source' us = y at agree ⊢
  cases agree with
  | error cause => exact .error cause
  | @ok s s' header =>
    have taken := s.shorter
    dsimp only
    rw [header.2.isMark]
    split
    · exact .ok ⟨header.1.declare space led .empty, header.2.tail⟩
    · have agree := agree_readMark header.2 .openBrace
      generalize readMark .openBrace s.rest = x at agree ⊢
      generalize readMark .openBrace s'.rest = y at agree ⊢
      cases agree with
      | error cause => exact .error cause
      | @ok i i' opens =>
        have opened := i.shorter
        dsimp only
        rw [header.1.kind, header.1.name]
        cases s.value.kind with
        | interfaceKind =>
          exact .ok ⟨header.1.declare space led .empty,
            at_dropMark (at_braces opens.2) .semicolon⟩
        | enumKind =>
          refine (agree_readEnumValues carries opens.2).map ?_
          intro _ _ values
          exact ⟨header.1.declare space led ⟨values.1, .nil⟩,
            at_dropMark values.2 .semicolon⟩
        | classKind =>
          refine (agree_readClassBody carries s.value.name space opens.2).map ?_
          intro _ _ body
          exact ⟨header.1.declare space led body.1, at_dropMark body.2 .semicolon⟩
termination_by 2 * ts.length
decreasing_by omega

theorem agree_readClassBody {ts us : List Item} (carries : p.Carries S)
    (typeName space : String) (h : p.At ts us) :
    p.Agree (p.Steps (Body.Alike S)) (readClassBody S.source typeName space ts)
      (readClassBody S.source' typeName space us) := by
  match ts with
  | [] =>
    obtain rfl := h.nil_right
    rw [readClassBody, readClassBody]
    exact h.faultAt fun _ => rfl
  | t :: r =>
    obtain ⟨u, q, rfl, token, rest⟩ := h.cons_right
    rw [readClassBody, readClassBody]
    simp only [token, Token.retext_eq_mark]
    split
    · exact .ok ⟨.empty, rest⟩
    · split
      · exact (agree_readClassBody carries typeName space rest).map fun _ _ same => same
      · have agree := agree_readLead carries h
        generalize readLead S.source (t :: r) = x at agree ⊢
        generalize readLead S.source' (u :: q) = y at agree ⊢
        cases agree with
        | error cause => exact .error cause
        | @ok l l' led =>
          have passed := l.short
          have modified := lefts_readModifiers .absent led.2
          dsimp only
          generalize readModifiers .absent l.rest = m at modified ⊢
          generalize readModifiers .absent l'.rest = m' at modified ⊢
          have passed' := m.short
          rw [startsNestedType_eq modified.2, ← modified.1]
          split
          · have agree := agree_readType carries space led.1 modified.2
            generalize readType S.source space l.value m.rest = x at agree ⊢
            generalize readType S.source' space l'.value m'.rest = y at agree ⊢
            cases agree with
            | error cause => exact .error cause
            | @ok d d' decl =>
              have taken := d.shorter
              refine (agree_readClassBody carries typeName space decl.2).map ?_
              intro _ _ body
              exact ⟨⟨body.1.members, .cons decl.1 body.1.nested⟩, body.2⟩
          · have agree := agree_readMember carries typeName led.1 m.value modified.2
            generalize readMember S.source typeName l.value m.value m.rest = x at agree ⊢
            generalize readMember S.source' typeName l'.value m.value m'.rest = y at agree ⊢
            cases agree with
            | error cause => exact .error cause
            | @ok d d' members =>
              have taken := d.shorter
              refine (agree_readClassBody carries typeName space members.2).map ?_
              intro _ _ body
              exact ⟨⟨List.rel_append members.1 body.1.members, body.1.nested⟩, body.2⟩
termination_by 2 * ts.length + 1
decreasing_by all_goals simp only [Short, Shorter, List.length_cons] at *; omega
end

theorem ahead_beq {t : Token} (h : p.At ts us) (n : Nat) (plain : ∀ value, t ≠ .text value) :
    (Item.ahead n us == some t) = (Item.ahead n ts == some t) := by
  rw [Bool.eq_iff_iff, beq_iff_eq, beq_iff_eq]
  exact (h.drop n).token?_eq_iff plain

theorem isGlobalAttribute_eq (h : p.At ts us) : isGlobalAttribute us = isGlobalAttribute ts := by
  rw [isGlobalAttribute, isGlobalAttribute, h.isMark, ahead_beq h 1 fun _ => Token.noConfusion,
    ahead_beq h 1 fun _ => Token.noConfusion, ahead_beq h 2 fun _ => Token.noConfusion]

theorem isGlobalUsing_eq (h : p.At ts us) : isGlobalUsing us = isGlobalUsing ts := by
  have first := ahead_beq (t := .ident "global") h 0 fun _ => Token.noConfusion
  have second := ahead_beq (t := .keyword .usingKw) h 1 fun _ => Token.noConfusion
  rw [isGlobalUsing, isGlobalUsing, second]
  exact congrArg (· && _) first

theorem at_afterUsing {t u : Item} {r q : List Item}
    (token : u.token = t.token.retext p.literal) (rest : p.At r q) :
    p.At (afterUsing t r) (afterUsing u q) := by
  simp only [afterUsing, token, Token.retext_eq_keyword]
  split
  · exact rest
  · exact rest.tail

theorem agree_readUsing (S : Spelling) (h : p.At ts us) :
    p.Agree (p.Lefts (List.Forall₂ (Part.Alike S))) (readUsing ts) (readUsing us) := by
  rw [readUsing, readUsing, h.isKeyword, h.isMark, ahead_beq h 1 fun _ => Token.noConfusion]
  split
  · exact .ok ⟨.nil, at_wholeMember h⟩
  · split
    · exact h.faultAt fun _ => rfl
    · have agree := agree_readQualifiedName h
      generalize readQualifiedName ts = x at agree ⊢
      generalize readQualifiedName us = y at agree ⊢
      cases agree with
      | error cause => exact .error cause
      | @ok s s' space =>
        dsimp only
        rw [← space.1]
        refine (agree_readMark space.2 .semicolon).map ?_
        intro _ _ ends
        exact ⟨.cons (.imported s.value) .nil, ends.2⟩

theorem agree_readTopLevel (carries : p.Carries S) (space : String) (h : p.At ts us) :
    p.Agree (p.Steps (List.Forall₂ (Part.Alike S))) (readTopLevel S.source space ts)
      (readTopLevel S.source' space us) := by
  have agree := agree_readLead carries h
  rw [readTopLevel, readTopLevel]
  generalize readLead S.source ts = x at agree ⊢
  generalize readLead S.source' us = y at agree ⊢
  cases agree with
  | error cause => exact .error cause
  | @ok l l' led =>
    have modified := lefts_readModifiers .absent led.2
    dsimp only
    generalize readModifiers .absent l.rest = m at modified ⊢
    generalize readModifiers .absent l'.rest = m' at modified ⊢
    obtain ⟨_, after, short⟩ := m
    obtain ⟨_, after', short'⟩ := m'
    have there : p.At after after' := modified.2
    cases after with
    | nil =>
      obtain rfl := there.nil_right
      exact there.faultAt fun _ => rfl
    | cons t r =>
      obtain ⟨u, q, rfl, token, rest⟩ := there.cons_right
      simp only [token, Token.retext_eq_keyword]
      split
      · exact .ok ⟨.nil, at_wholeMember rest⟩
      · refine (agree_readType carries space led.1 there).map ?_
        intro _ _ decl
        exact ⟨.cons (.declared decl.1) .nil, decl.2⟩

theorem agree_readNamespaceBody {ts us : List Item} (carries : p.Carries S) (space : String)
    (braced : Bool) (h : p.At ts us) :
    p.Agree (p.Lefts (List.Forall₂ (Part.Alike S))) (readNamespaceBody S.source space braced ts)
      (readNamespaceBody S.source' space braced us) := by
  match ts with
  | [] =>
    obtain rfl := h.nil_right
    rw [readNamespaceBody, readNamespaceBody]
    split
    · exact h.faultAt fun _ => rfl
    · exact .ok ⟨.nil, h⟩
  | t :: r =>
    have globalUsing := isGlobalUsing_eq h
    have globalAttribute := isGlobalAttribute_eq h
    obtain ⟨u, q, rfl, token, rest⟩ := h.cons_right
    rw [readNamespaceBody, readNamespaceBody]
    simp only [token, Token.retext_eq_mark, Token.retext_eq_keyword, globalUsing, globalAttribute]
    split
    · exact .ok ⟨.nil, at_dropMark rest .semicolon⟩
    split
    · exact (agree_readNamespaceBody carries space braced rest).map fun _ _ same => same
    split
    · have short := afterUsing_short t r
      have agree := agree_readUsing S (at_afterUsing token rest)
      generalize readUsing (afterUsing t r) = x at agree ⊢
      generalize readUsing (afterUsing u q) = y at agree ⊢
      cases agree with
      | error cause => exact .error cause
      | @ok l l' imported =>
        have passed := l.short
        refine (agree_readNamespaceBody carries space braced imported.2).map ?_
        intro _ _ others
        exact ⟨List.rel_append imported.1 others.1, others.2⟩
    split
    · have short := Skip.wholeMember_short r
      exact (agree_readNamespaceBody carries space braced (at_wholeMember rest)).map
        fun _ _ same => same
    split
    · have agree := agree_readQualifiedName rest
      generalize readQualifiedName r = x at agree ⊢
      generalize readQualifiedName q = y at agree ⊢
      cases agree with
      | error cause => exact .error cause
      | @ok s s' name =>
        have taken := s.shorter
        dsimp only
        rw [name.2.isMark, ← name.1]
        split
        · have tail := short_tail s.rest
          exact (agree_readNamespaceBody carries (qualify space s.value) braced name.2.tail).map
            fun _ _ same => same
        · have agree := agree_readMark name.2 .openBrace
          generalize readMark .openBrace s.rest = x at agree ⊢
          generalize readMark .openBrace s'.rest = y at agree ⊢
          cases agree with
          | error cause => exact .error cause
          | @ok i i' opens =>
            have opened := i.shorter
            have agree := agree_readNamespaceBody carries (qualify space s.value) true opens.2
            dsimp only
            generalize readNamespaceBody S.source (qualify space s.value) true i.rest =
              x at agree ⊢
            generalize readNamespaceBody S.source' (qualify space s.value) true i'.rest = y
              at agree ⊢
            cases agree with
            | error cause => exact .error cause
            | @ok l l' inner =>
              have passed := l.short
              refine (agree_readNamespaceBody carries space braced inner.2).map ?_
              intro _ _ others
              exact ⟨List.rel_append inner.1 others.1, others.2⟩
    split
    · have short := Skip.wholeGroup_short .openBracket .closeBracket r
      exact (agree_readNamespaceBody carries space braced
        (at_wholeGroup .openBracket .closeBracket rest)).map fun _ _ same => same
    · have agree := agree_readTopLevel carries space h
      generalize readTopLevel S.source space (t :: r) = x at agree ⊢
      generalize readTopLevel S.source' space (u :: q) = y at agree ⊢
      cases agree with
      | error cause => exact .error cause
      | @ok s s' declared =>
        have taken := s.shorter
        refine (agree_readNamespaceBody carries space braced declared.2).map ?_
        intro _ _ others
        exact ⟨List.rel_append declared.1 others.1, others.2⟩
termination_by ts.length
decreasing_by all_goals simp only [Short, Shorter, List.length_cons] at *; omega

end Pairing
end Ambient
