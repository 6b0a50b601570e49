import Ambient.Host.MemberReader
import Ambient.Proofs.Formatting.Attributes

/-!
# Members read side by side

Enum values, record parameters and class members carry a type or an initializer as it is written, so
their lists are related member by member. Whatever only decides how the reading goes on is the same.
-/
namespace Ambient

namespace Host
variable (S : Spelling)

structure Member.Alike (m n : Member) : Prop where
  name : n.name = m.name
  type : S.type m.typeName n.typeName
  init : Option.Rel S.init m.init n.init
  summary : n.summary = m.summary
  attributes : List.Forall₂ (Attribute.Alike S) m.attributes n.attributes

structure Lead.Alike (a b : Lead) : Prop where
  docs : b.docs = a.docs
  attributes : List.Forall₂ (Attribute.Alike S) a.attributes b.attributes

end Host

namespace Pairing
open Host
variable {p : Pairing} {S : Spelling} {ts us : List Item}

theorem lefts_readModifiers (m : Modifiers) (h : p.At ts us) :
    p.Lefts Eq (readModifiers m ts) (readModifiers m us) := by
  induction ts generalizing us m with
  | nil =>
    obtain rfl := h.nil_right
    exact ⟨rfl, h⟩
  | cons t r ih =>
    obtain ⟨u, q, rfl, token, rest⟩ := h.cons_right
    have keep : p.Lefts Eq (Left.keep m (t :: r)) (Left.keep m (u :: q)) := ⟨rfl, h⟩
    rw [readModifiers, readModifiers, token]
    cases t.token with
    | keyword k =>
      simp only [Token.retext, rest.isMark]
      split
      · exact keep
      · cases m.add? k with
        | none => exact keep
        | some m' => exact ih m' rest
    | _ => exact keep

theorem agree_readLead (carries : p.Carries S) (h : p.At ts us) :
    p.Agree (p.Lefts (Lead.Alike S)) (readLead S.source ts) (readLead S.source' us) := by
  rw [readLead, readLead]
  have agree := agree_readAttributeLists carries h
  generalize readAttributeLists S.source ts = x at agree ⊢
  generalize readAttributeLists S.source' us = y at agree ⊢
  cases agree with
  | error cause => exact .error cause
  | @ok l l' lists =>
    dsimp only
    rw [carries.docs h, carries.docs lists.2]
    exact .ok ⟨⟨rfl, lists.1⟩, lists.2⟩

theorem agree_readWrittenType (carries : p.Carries S) (h : p.At ts us) :
    p.Agree (p.Steps S.type) (readWrittenType S.source ts) (readWrittenType S.source' us) := by
  have agree := agree_read h
  rw [readWrittenType, readWrittenType]
  cases found : TypeSyntax.read ts with
  | error e =>
    rw [found] at agree
    generalize TypeSyntax.read us = y at agree ⊢
    cases agree with
    | error cause => exact .error cause
  | ok s =>
    rw [found] at agree
    generalize TypeSyntax.read us = y at agree ⊢
    cases agree with
    | @ok _ s' same => exact .ok ⟨carries.type h found same.2, same.2⟩

theorem lefts_readInitializer (carries : p.Carries S) (h : p.At ts us) :
    p.Lefts (Option.Rel S.init) (readInitializer S.source ts) (readInitializer S.source' us) := by
  cases ts with
  | nil =>
    obtain rfl := h.nil_right
    exact ⟨.none, h⟩
  | cons t r =>
    obtain ⟨u, q, rfl, token, rest⟩ := h.cons_right
    rw [readInitializer, readInitializer]
    simp only [token, Token.retext_eq_mark]
    split
    · exact ⟨.some (carries.init rest), at_expression false .outside rest⟩
    · exact ⟨.none, h⟩

theorem agree_readEnumValues {ts us : List Item} (carries : p.Carries S) (h : p.At ts us) :
    p.Agree (p.Steps (List.Forall₂ (Member.Alike S))) (readEnumValues S.source ts)
      (readEnumValues S.source' us) := by
  have agree := agree_readLead carries h
  rw [readEnumValues, readEnumValues]
  generalize readLead S.source ts = x at agree ⊢
  generalize readLead S.source' us = y at agree ⊢
  cases agree with
  | error cause => exact .error cause
  | @ok l l' leads =>
    obtain ⟨lead, after, short⟩ := l
    obtain ⟨lead', after', short'⟩ := l'
    have led : Lead.Alike S lead lead' := leads.1
    have there : p.At after after' := leads.2
    cases after with
    | nil =>
      obtain rfl := there.nil_right
      exact there.faultAt fun _ => rfl
    | cons t r =>
      obtain ⟨u, q, rfl, token, rest⟩ := there.cons_right
      simp only [token, Token.retext_eq_mark]
      split
      · exact .ok ⟨.nil, rest⟩
      · have agree := agree_readName there
        generalize readName (t :: r) = x at agree ⊢
        generalize readName (u :: q) = y at agree ⊢
        cases agree with
        | error cause => exact .error cause
        | @ok s s' name =>
          have taken := s.shorter
          have values := lefts_readInitializer carries name.2
          dsimp only
          generalize readInitializer S.source s.rest = v at values ⊢
          generalize readInitializer S.source' s'.rest = v' at values ⊢
          obtain ⟨init, afterInit, shortInit⟩ := v
          obtain ⟨init', afterInit', shortInit'⟩ := v'
          have initialized : Option.Rel S.init init init' := values.1
          have there : p.At afterInit afterInit' := values.2
          have value : Member.Alike S
              ⟨s.value, "", init, Summary.ofDocs lead.docs, lead.attributes⟩
              ⟨s'.value, "", init', Summary.ofDocs lead'.docs, lead'.attributes⟩ :=
            ⟨name.1.symm, carries.noType, initialized, congrArg Summary.ofDocs led.docs,
              led.attributes⟩
          cases afterInit with
          | nil =>
            obtain rfl := there.nil_right
            exact there.faultAt fun _ => rfl
          | cons t' r' =>
            obtain ⟨u', q', rfl, token', rest'⟩ := there.cons_right
            have fewer : r'.length < ts.length := by
              have all := Nat.lt_of_lt_of_le taken.1 short.1
              exact Nat.lt_trans (Nat.lt_of_lt_of_le (Nat.lt_succ_self _) shortInit.1) all
            simp only [token', Token.retext_eq_mark]
            split
            · refine (agree_readEnumValues carries rest').map ?_
              intro _ _ others
              exact ⟨.cons value others.1, others.2⟩
            · split
              · exact .ok ⟨.cons value .nil, rest'⟩
              · exact there.faultAt fun _ => rfl
termination_by ts.length
decreasing_by exact fewer

theorem at_skipDefault (h : p.At ts us) : p.At (skipDefault ts) (skipDefault us) := by
  unfold skipDefault
  rw [h.isMark]
  split
  · exact at_expression true .outside h.tail
  · exact h

theorem lefts_passDefault (h : p.At ts us) : p.Lefts Eq (passDefault ts) (passDefault us) :=
  ⟨rfl, at_skipDefault h⟩

theorem at_dropParameterModifiers (h : p.At ts us) :
    p.At (dropParameterModifiers ts) (dropParameterModifiers us) := by
  refine h.dropWhile isParameterModifier fun t => ?_
  cases t <;> rfl

theorem agree_readParameters {ts us : List Item} (carries : p.Carries S) (h : p.At ts us) :
    p.Agree (p.Steps (List.Forall₂ (Member.Alike S))) (readParameters S.source ts)
      (readParameters S.source' us) := by
  have agree := agree_readAttributeLists carries h
  rw [readParameters, readParameters]
  generalize readAttributeLists S.source ts = x at agree ⊢
  generalize readAttributeLists S.source' us = y at agree ⊢
  cases agree with
  | error cause => exact .error cause
  | @ok l l' lists =>
    have passed := l.short
    have modifiers := dropParameterModifiers_short l.rest
    have agree := agree_readWrittenType carries (at_dropParameterModifiers lists.2)
    dsimp only
    generalize readWrittenType S.source (dropParameterModifiers l.rest) = x at agree ⊢
    generalize readWrittenType S.source' (dropParameterModifiers l'.rest) = y at agree ⊢
    cases agree with
    | error cause => exact .error cause
    | @ok s s' type =>
      have taken := s.shorter
      have agree := agree_readName type.2
      dsimp only
      generalize readName s.rest = x at agree ⊢
      generalize readName s'.rest = y at agree ⊢
      cases agree with
      | error cause => exact .error cause
      | @ok n n' name =>
        have named := n.shorter
        have defaults := lefts_passDefault name.2
        have parameter : Member.Alike S (plainMember n.value s.value none l.value)
            (plainMember n'.value s'.value none l'.value) :=
          ⟨name.1.symm, type.1, .none, rfl, lists.1⟩
        dsimp only
        generalize passDefault n.rest = d at defaults ⊢
        generalize passDefault n'.rest = d' at defaults ⊢
        obtain ⟨_, after, short⟩ := d
        obtain ⟨_, after', short'⟩ := d'
        have there : p.At after after' := defaults.2
        cases after with
        | nil =>
          obtain rfl := there.nil_right
          exact there.faultAt fun _ => rfl
        | cons t r =>
          obtain ⟨u, q, rfl, token, rest⟩ := there.cons_right
          have fewer : r.length < ts.length := by
            have shorter := Nat.lt_of_lt_of_le (Nat.lt_succ_self r.length) short.1
            omega
          simp only [token, Token.retext_eq_mark]
          split
          · exact .ok ⟨.cons parameter .nil, rest⟩
          · split
            · refine (agree_readParameters carries rest).map ?_
              intro _ _ others
              exact ⟨.cons parameter others.1, others.2⟩
            · exact there.faultAt fun _ => rfl
termination_by ts.length
decreasing_by exact fewer

theorem at_wholeMember (h : p.At ts us) : p.At (Skip.wholeMember ts) (Skip.wholeMember us) :=
  at_member 0 h

theorem agree_readAccessors {ts us : List Item} (carries : p.Carries S) (h : p.At ts us) :
    p.Agree (p.Steps Eq) (readAccessors S.source ts) (readAccessors S.source' us) := by
  cases spelled : ts with
  | nil =>
    rw [spelled] at h
    obtain rfl := h.nil_right
    rw [readAccessors, readAccessors]
    exact h.faultAt fun _ => rfl
  | cons t r =>
    rw [spelled] at h
    obtain ⟨u, q, rfl, token, rest⟩ := h.cons_right
    rw [readAccessors, readAccessors]
    simp only [token, Token.retext_eq_mark]
    split
    · exact .ok ⟨rfl, rest⟩
    · have agree := agree_readAttributeLists carries h
      generalize readAttributeLists S.source (t :: r) = x at agree ⊢
      generalize readAttributeLists S.source' (u :: q) = y at agree ⊢
      cases agree with
      | error cause => exact .error cause
      | @ok l l' lists =>
        have passed := l.short
        have modified := lefts_readModifiers .absent lists.2
        dsimp only
        generalize readModifiers .absent l.rest = m at modified ⊢
        generalize readModifiers .absent l'.rest = m' at modified ⊢
        have passed' := m.short
        have agree := agree_readName modified.2
        generalize readName m.rest = x at agree ⊢
        generalize readName m'.rest = y at agree ⊢
        cases agree with
        | error cause => exact .error cause
        | @ok s s' name =>
          have taken := s.shorter
          have tail := short_tail s.rest
          have skipped := Skip.wholeMember_short s.rest
          dsimp only
          rw [← modified.1, ← name.1, name.2.token?]
          generalize Item.token? s.rest = found
          cases found with
          | none => exact name.2.faultAt fun _ => rfl
          | some t' =>
            cases t' with
            | mark mark =>
              cases mark with
              | semicolon =>
                refine (agree_readAccessors carries name.2.tail).map ?_
                intro _ _ others
                exact ⟨congrArg (s.value == "get" && !m.value.isRestricted || ·) others.1,
                  others.2⟩
              | arrow =>
                refine (agree_readAccessors carries (at_wholeMember name.2)).map ?_
                intro _ _ others
                exact ⟨congrArg (s.value == "get" && !m.value.isRestricted || ·) others.1,
                  others.2⟩
              | openBrace =>
                refine (agree_readAccessors carries (at_wholeMember name.2)).map ?_
                intro _ _ others
                exact ⟨congrArg (s.value == "get" && !m.value.isRestricted || ·) others.1,
                  others.2⟩
              | _ => exact name.2.faultAt fun _ => rfl
            | _ => exact name.2.faultAt fun _ => rfl
termination_by ts.length
decreasing_by all_goals subst spelled; simp only [Short, Shorter, List.length_cons] at *; omega

theorem agree_readFieldNames {ts us : List Item} (name : String) (h : p.At ts us) :
    p.Agree (p.Steps Eq) (readFieldNames name ts) (readFieldNames name us) := by
  have defaults := lefts_passDefault h
  rw [readFieldNames, readFieldNames]
  generalize passDefault ts = d at defaults ⊢
  generalize passDefault us = d' at defaults ⊢
  obtain ⟨_, after, short⟩ := d
  obtain ⟨_, after', short'⟩ := d'
  have there : p.At after after' := defaults.2
  cases after with
  | nil =>
    obtain rfl := there.nil_right
    exact there.faultAt fun _ => rfl
  | cons t r =>
    obtain ⟨u, q, rfl, token, rest⟩ := there.cons_right
    have shorter := Nat.lt_of_lt_of_le (Nat.lt_succ_self r.length) short.1
    simp only [token, Token.retext_eq_mark]
    split
    · have agree := agree_readName rest
      generalize readName r = x at agree ⊢
      generalize readName q = y at agree ⊢
      cases agree with
      | error cause => exact .error cause
      | @ok s s' next =>
        have taken := s.shorter
        have fewer : s.rest.length < ts.length := Nat.lt_trans taken.1 shorter
        dsimp only
        rw [← next.1]
        refine (agree_readFieldNames s.value next.2).map ?_
        intro _ _ others
        exact ⟨congrArg (name :: ·) others.1, others.2⟩
    · split
      · exact .ok ⟨rfl, rest⟩
      · exact there.faultAt fun _ => rfl
termination_by ts.length
decreasing_by exact fewer

theorem agree_readProperty (carries : p.Carries S) (h : p.At ts us) :
    p.Agree (p.Steps Eq) (readProperty S.source ts) (readProperty S.source' us) := by
  have agree := agree_readAccessors carries h
  rw [readProperty, readProperty]
  generalize readAccessors S.source ts = x at agree ⊢
  generalize readAccessors S.source' us = y at agree ⊢
  cases agree with
  | error cause => exact .error cause
  | @ok s s' readable =>
    dsimp only
    rw [readable.2.isMark, ← readable.1]
    split
    · refine (agree_readMark (at_skipDefault readable.2) .semicolon).map ?_
      intro _ _ ends
      exact ⟨rfl, ends.2⟩
    · exact .ok ⟨rfl, readable.2⟩

theorem lefts_passMember {α : Type} (value : α) (h : p.At ts us) :
    p.Lefts Eq (Skip.passMember value ts) (Skip.passMember value us) :=
  ⟨rfl, at_wholeMember h⟩

theorem agree_readMemberTail (carries : p.Carries S) (name : String) (h : p.At ts us) :
    p.Agree (p.Lefts Eq) (readMemberTail S.source name ts) (readMemberTail S.source' name us) := by
  rw [readMemberTail, readMemberTail, h.token?]
  generalize Item.token? ts = found
  cases found with
  | none => exact h.faultAt fun _ => rfl
  | some t =>
    cases t with
    | mark mark =>
      cases mark with
      | openParen | openAngle | dot => exact .ok (lefts_passMember [] h)
      | openBrace =>
        refine (agree_readProperty carries h.tail).map ?_
        intro _ _ readable
        exact ⟨congrArg (fun readable => if readable then [name] else []) readable.1,
          readable.2⟩
      | arrow => exact .ok (lefts_passMember [name] h)
      | equals | semicolon | comma =>
        exact (agree_readFieldNames name h).map fun _ _ names => names
      | _ => exact h.faultAt fun _ => rfl
    | _ => exact h.faultAt fun _ => rfl

theorem isUntranslated_eq (typeName : String) (h : p.At ts us) :
    isUntranslated typeName us = isUntranslated typeName ts := by
  have call := (h.drop 1).token?_eq_iff (t := .mark .openParen) fun _ => Token.noConfusion
  have called : (Item.ahead 1 us == some (.mark .openParen)) =
      (Item.ahead 1 ts == some (.mark .openParen)) := by
    rw [Bool.eq_iff_iff, beq_iff_eq, beq_iff_eq]
    exact call
  rw [isUntranslated, isUntranslated, h.token?, called]
  cases Item.token? ts with
  | none => rfl
  | some t => cases t <;> rfl

theorem alike_plainMember {typeName typeName' : String} (type : S.type typeName typeName')
    {lead lead' : Lead} (led : Lead.Alike S lead lead') (name : String) :
    Member.Alike S (plainMember name typeName (Summary.ofDocs lead.docs) lead.attributes)
      (plainMember name typeName' (Summary.ofDocs lead'.docs) lead'.attributes) :=
  ⟨rfl, type, .none, congrArg Summary.ofDocs led.docs, led.attributes⟩

theorem agree_readMember (carries : p.Carries S) (typeName : String) {lead lead' : Lead}
    (led : Lead.Alike S lead lead') (modifiers : Modifiers) (h : p.At ts us) :
    p.Agree (p.Steps (List.Forall₂ (Member.Alike S)))
      (readMember S.source typeName lead modifiers ts)
      (readMember S.source' typeName lead' modifiers us) := by
  rw [readMember, readMember]
  by_cases passed : isUntranslated typeName ts = true
  · rw [dif_pos passed, dif_pos ((isUntranslated_eq typeName h).trans passed)]
    exact .ok ⟨.nil, at_wholeMember h.tail⟩
  rw [dif_neg passed, dif_neg fun h' => passed ((isUntranslated_eq typeName h).symm.trans h')]
  have agree := agree_readWrittenType carries h
  generalize readWrittenType S.source ts = x at agree ⊢
  generalize readWrittenType S.source' us = y at agree ⊢
  cases agree with
  | error cause => exact .error cause
  | @ok s s' type =>
    dsimp only
    rw [type.2.isKeyword, type.2.isKeyword]
    split
    · exact .ok ⟨.nil, at_wholeMember type.2⟩
    · have agree := agree_readName type.2
      generalize readName s.rest = x at agree ⊢
      generalize readName s'.rest = y at agree ⊢
      cases agree with
      | error cause => exact .error cause
      | @ok n n' name =>
        dsimp only
        rw [← name.1]
        refine (agree_readMemberTail carries n.value name.2).map ?_
        intro l l' names
        refine ⟨?_, names.2⟩
        show List.Forall₂ _ (if modifiers.exported then _ else [])
          (if modifiers.exported then _ else [])
        rw [← names.1]
        split
        · rw [List.forall₂_map_left_iff, List.forall₂_map_right_iff, List.forall₂_same]
          exact fun name _ => alike_plainMember type.1 led name
        · exact .nil

end Pairing
end Ambient
