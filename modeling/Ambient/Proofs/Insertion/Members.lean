import Ambient.Proofs.Insertion.Leads

/-!
# Members read alike

Modifiers, parameters and initializers are read alike where the text goes on in another way. The
values of an enum, the accessors of a property and the names of a field end with a mark of their
own, and a member of a class with its semicolon or block.
-/
namespace Ambient.Host
variable {O : Overlap} {ts us rest : List Item}

theorem keeps_readModifiers (m : Modifiers) (ts : List Item) :
    Keeps O (fun us rest => Leaves (readModifiers m us) (readModifiers m ts).value rest) ts
      (readModifiers m ts).rest := by
  induction ts generalizing m with
  | nil => exact .nil
  | cons t r ih =>
    by_cases modifier : ∃ k m', t.token = .keyword k ∧ m.add? k = some m' ∧
        ¬ (k = .partialKw ∧ Item.isMark .openParen r = true)
    · obtain ⟨k, m', token, added, goesOn⟩ := modifier
      have onward : ∀ q, Item.isMark .openParen q = Item.isMark .openParen r →
          readModifiers m (t :: q) = ((readModifiers m' q).behind t).left := by
        intro q same
        rw [readModifiers, token]
        simp only [same, goesOn, if_false, added]
      rw [onward r rfl]
      refine ((ih m').near.behind t).imp ?_
      rintro _ us ⟨r', rfl, near, more⟩
      obtain ⟨value, left⟩ := leaves_iff.mp more
      rw [leaves_iff, onward r' (near.isMark _)]
      exact ⟨value, left⟩
    · have keep : ∀ q, (t.token = .keyword .partialKw →
          Item.isMark .openParen q = Item.isMark .openParen r) →
            readModifiers m (t :: q) = .keep m (t :: q) := by
        intro q same
        rw [readModifiers]
        split
        · rename_i k token
          split
          · rfl
          · rename_i single
            split
            · rename_i m' added
              refine absurd ⟨k, m', token, added, ?_⟩ modifier
              rintro ⟨rfl, opens⟩
              exact single ⟨rfl, (same token).trans opens⟩
            · rfl
        · rfl
      rw [keep r fun _ => rfl]
      refine .keep_cons fun q near => ?_
      rw [leaves_iff, keep q]
      · exact ⟨rfl, rfl⟩
      · intro token
        obtain ⟨u, q', q'', rfl, same⟩ := near.exists_two fun quiet => quiet.2.1 token
        obtain ⟨-, rfl⟩ := List.cons.inj same
        rfl

theorem keeps_readInitializer (ts : List Item) :
    Keeps O (fun us rest => Leaves (readInitializer O.source' us)
      (readInitializer O.source ts).value rest) ts (readInitializer O.source ts).rest := by
  cases ts with
  | nil => exact .nil
  | cons t r =>
    by_cases equals : t.token = .mark .equals
    · have takes : ∀ src q, readInitializer src (t :: q) =
          (((writtenExpression src false q).map some).behind t).left :=
        fun src q => if_pos equals
      rw [takes]
      refine ((keeps_writtenExpression false r).behind t).imp ?_
      rintro _ us ⟨q, rfl, written⟩
      obtain ⟨value, left⟩ := leaves_iff.mp written
      rw [leaves_iff, takes]
      exact ⟨congrArg some value, left⟩
    · have keep : ∀ src q, readInitializer src (t :: q) = .keep none (t :: q) :=
        fun src q => if_neg equals
      rw [keep]
      refine .keep_cons fun q _ => ?_
      rw [leaves_iff, keep]
      exact ⟨rfl, rfl⟩

theorem keeps_skipDefault (ts : List Item) :
    Keeps O (fun ts us => skipDefault ts = us) ts (skipDefault ts) := by
  by_cases equals : Item.isMark .equals ts = true
  · rw [skipDefault, if_pos equals]
    refine ((seals_tail equals).keeps.trans (keeps_expression true .outside ts.tail)).imp ?_
    rintro ts us ⟨_, ⟨equals, rfl⟩, passed⟩
    rw [skipDefault, if_pos equals]
    exact passed
  · rw [skipDefault, if_neg equals]
    exact .keep fun us near => if_neg (by rwa [near.isMark])

theorem keeps_dropParameterModifiers (ts : List Item) :
    Keeps O (fun ts us => dropParameterModifiers ts = us) ts (dropParameterModifiers ts) :=
  keeps_dropWhile _ ts

/-- A name follows, and no dot or bracket. -/
theorem not_mark_of_readName {m : Mark} {s : Step String ts} (h : readName ts = .ok s) :
    Item.isMark m ts = false := by
  obtain ⟨t, whole, named⟩ := exists_of_readName h
  rw [whole, ← Bool.not_eq_true]
  intro found
  have token : t.token = .mark m := by simpa [Item.isMark, Item.token?] using found
  rw [token] at named
  cases named

theorem not_mark_of_takes {m : Mark} {name : String} (h : Takes (readName ts) name rest) :
    Item.isMark m ts = false := by
  obtain ⟨_, read⟩ := h
  exact not_mark_of_readName read

theorem takes_readParameters_last {src : List Char} {attributes : List Attribute}
    {written name : String} {lists type after : List Item} {t : Item}
    (front : Passes (readAttributeLists src ts) attributes lists)
    (read : Takes (readWrittenType src (dropParameterModifiers lists)) written type)
    (named : Takes (readName type) name after) (default : skipDefault after = t :: rest)
    (closes : t.token = .mark .closeParen) :
    Takes (readParameters src ts) [plainMember name written none attributes] rest := by
  obtain ⟨_, front⟩ := front
  obtain ⟨_, read⟩ := read
  obtain ⟨_, named⟩ := named
  obtain ⟨_, default⟩ := leaves_passDefault default
  rw [takes_iff, readParameters, front]
  simp only [read, named]
  rw [default]
  simp only [closes, if_true]
  rfl

theorem takes_readParameters_more {src : List Char} {attributes : List Attribute}
    {written name : String} {lists type after behind : List Item} {t : Item} {more : List Member}
    (front : Passes (readAttributeLists src ts) attributes lists)
    (read : Takes (readWrittenType src (dropParameterModifiers lists)) written type)
    (named : Takes (readName type) name after) (default : skipDefault after = t :: rest)
    (comma : t.token = .mark .comma) (others : Takes (readParameters src rest) more behind) :
    Takes (readParameters src ts) (plainMember name written none attributes :: more) behind := by
  obtain ⟨_, front⟩ := front
  obtain ⟨_, read⟩ := read
  obtain ⟨_, named⟩ := named
  obtain ⟨_, default⟩ := leaves_passDefault default
  obtain ⟨_, others⟩ := others
  rw [takes_iff, readParameters, front]
  simp only [read, named]
  rw [default]
  simp only [comma, if_true, others]
  rfl

theorem keeps_readParameters {s : Step (List Member) ts}
    (h : readParameters O.source ts = .ok s) :
    Keeps O (fun ts us => Takes (readParameters O.source' ts) s.value us) ts s.rest := by
  fun_induction readParameters O.source ts with
  | case1 | case2 | case3 | case4 | case7 => cases h
  | case5 ts attributes lists _ front _ written type _ read name after _ named _ t r _ default _ =>
    rename_i closes
    cases h
    have plain : ∀ m, Item.isMark m type = false := fun m => not_mark_of_readName named
    have lists := (keeps_readAttributeLists front).trans (keeps_dropParameterModifiers lists)
    have middle := (keeps_readWrittenType read (plain _) (plain _)).trans (keeps_readName named)
    have last := keeps_skipDefault (O := O) after
    rw [show skipDefault after = t :: r from congrArg Left.rest default] at last
    refine (lists.trans (middle.trans (last.trans (.first t r)))).imp ?_
    rintro ts us ⟨_, ⟨_, front, rfl⟩, _, ⟨_, read, named⟩, _, default, rfl⟩
    exact takes_readParameters_last front read named default closes
  | case6 ts attributes lists _ front _ written type _ read name after _ named _ t r _ default _
      _ comma =>
    rename_i ih
    obtain ⟨inner, more, rfl⟩ := map_eq_ok h
    have plain : ∀ m, Item.isMark m type = false := fun m => not_mark_of_readName named
    have lists := (keeps_readAttributeLists front).trans (keeps_dropParameterModifiers lists)
    have middle := (keeps_readWrittenType read (plain _) (plain _)).trans (keeps_readName named)
    have last := keeps_skipDefault (O := O) after
    rw [show skipDefault after = t :: r from congrArg Left.rest default] at last
    refine (lists.trans (middle.trans (last.trans ((ih more).behind t)))).imp ?_
    rintro ts us ⟨_, ⟨_, front, rfl⟩, _, ⟨_, read, named⟩, _, default, _, rfl, more⟩
    exact takes_readParameters_more front read named default comma more

theorem takes_readEnumValues_on {src : List Char} {lead : Lead} {name : String}
    {init : Option String} {us after behind : List Item} {t : Item} {more : List Member}
    (front : Passes (readLead src ts) lead us) (named : Takes (readName us) name after)
    (initializer : Leaves (readInitializer src after) init (t :: rest))
    (others : t.token = .mark .comma ∧ Takes (readEnumValues src rest) more behind ∨
      t.token = .mark .closeBrace ∧ more = [] ∧ rest = behind) :
    Takes (readEnumValues src ts)
      (⟨name, "", init, Summary.ofDocs lead.docs, lead.attributes⟩ :: more) behind := by
  obtain ⟨_, front⟩ := front
  have inside : Item.isMark .closeBrace us = false := not_mark_of_takes named
  obtain ⟨i, rfl, -⟩ := exists_of_takes_readName named
  have first : i.token ≠ .mark .closeBrace := TypeSyntax.not_token inside
  obtain ⟨_, named⟩ := named
  obtain ⟨_, initializer⟩ := initializer
  rw [takes_iff, readEnumValues, front]
  simp only [if_neg first, named]
  rw [initializer]
  rcases others with ⟨comma, _, again⟩ | ⟨closes, rfl, rfl⟩
  · simp only [comma, if_true, again]
    rfl
  · simp only [closes]
    rfl

theorem seals_readEnumValues {s : Step (List Member) ts}
    (h : readEnumValues O.source ts = .ok s) :
    Seals O (fun ts us => Takes (readEnumValues O.source' ts) s.value us) ts s.rest := by
  fun_induction readEnumValues O.source ts with
  | case1 | case2 | case4 | case5 | case8 => cases h
  | case3 ts lead t r _ front closes =>
    cases h
    refine ((keeps_readLead front).seals (.first (closes ▸ Token.isQuiet_mark _) _)).imp ?_
    rintro ts us ⟨_, front, rfl⟩
    exact takes_readEnumValues_close front closes
  | case6 ts lead t r _ front _ name after _ named init u q _ initializer _ comma =>
    rename_i ih
    obtain ⟨inner, more, rfl⟩ := map_eq_ok h
    have last := keeps_readInitializer (O := O) after
    rw [initializer] at last
    refine ((keeps_readLead front).seals ((keeps_readName named).seals (last.seals
      ((Keeps.first u q).seals (ih more))))).imp ?_
    rintro ts us ⟨_, front, _, named, _, initializer, _, rfl, more⟩
    exact takes_readEnumValues_on front named initializer (.inl ⟨comma, more⟩)
  | case7 ts lead t r _ front _ name after _ named init u q _ initializer _ _ =>
    rename_i closes
    cases h
    have last := keeps_readInitializer (O := O) after
    rw [initializer] at last
    refine ((keeps_readLead front).seals ((keeps_readName named).seals (last.seals
      (.first (closes ▸ Token.isQuiet_mark _) _)))).imp ?_
    rintro ts us ⟨_, front, _, named, _, initializer, rfl⟩
    exact takes_readEnumValues_on front named initializer (.inr ⟨closes, rfl, rfl⟩)

theorem token?_eq_some {m : Mark} (h : Item.token? ts = some (.mark m)) :
    ∃ t r, ts = t :: r ∧ t.token = .mark m := by
  cases ts with
  | nil => cases h
  | cons t r => exact ⟨t, r, rfl, Option.some.inj h⟩

theorem keeps_passesBody {body more : List Item} (passed : PassesBody body more)
    (some : more ≠ []) :
    Keeps O PassesBody body more := by
  rcases passed with ⟨found, rfl⟩ | ⟨found, rfl⟩
  · obtain ⟨t, r, rfl, token⟩ := token?_eq_some found
    refine (Keeps.first t r).imp ?_
    rintro _ us rfl
    exact .inl ⟨found, rfl⟩
  · obtain ⟨t, r, m, rfl, token, known⟩ : ∃ t r m, body = t :: r ∧ t.token = .mark m ∧
        (m = .arrow ∨ m = .openBrace) := by
      rcases found with found | found <;>
        · obtain ⟨t, r, rfl, token⟩ := token?_eq_some found
          exact ⟨t, r, _, rfl, token, by decide⟩
    have quiet : t.token.IsQuiet := token ▸ Token.isQuiet_mark m
    have other : t.token ≠ .mark .closeBrace := by
      rw [token]
      rcases known with rfl | rfl <;> decide
    refine (stops_passed quiet other some).keeps.near.imp ?_
    rintro ts us ⟨near, passed⟩
    exact .inr ⟨near.token?.symm ▸ found, passed⟩

theorem seals_readAccessors_on {l : Left (List Attribute) ts} {m : Left Modifiers l.rest}
    {n : Step String m.rest} {more : List Item} {readable : Bool}
    (inside : Item.isMark .closeBrace ts = false) (front : readAttributeLists O.source ts = .ok l)
    (modified : readModifiers .absent l.rest = m) (named : readName m.rest = .ok n)
    (passed : PassesBody n.rest more)
    (others : Seals O (fun ts us => Takes (readAccessors O.source' ts) readable us) more rest) :
    Seals O (fun ts us => Takes (readAccessors O.source' ts)
      ((n.value == "get" && !m.value.isRestricted) || readable) us) ts rest := by
  have modifiers := keeps_readModifiers (O := O) .absent l.rest
  rw [modified] at modifiers
  refine ((keeps_readAttributeLists front).near.seals (modifiers.seals ((keeps_readName named).seals
    ((keeps_passesBody passed others.ne_nil).seals others)))).imp ?_
  rintro ts us ⟨_, ⟨near, front⟩, _, modified, _, named, _, passed, others⟩
  exact takes_readAccessors_on ((near.isMark _).trans inside) front modified named passed others

theorem seals_readAccessors {s : Step Bool ts} (h : readAccessors O.source ts = .ok s) :
    Seals O (fun ts us => Takes (readAccessors O.source' ts) s.value us) ts s.rest := by
  fun_induction readAccessors O.source ts with
  | case1 | case3 | case4 | case8 => cases h
  | case2 t r closes =>
    cases h
    refine (Seals.first (closes ▸ Token.isQuiet_mark _) r).imp ?_
    rintro _ us rfl
    exact takes_readAccessors_close closes
  | case5 t r other attributes lists _ front modifiers start _ modified accessor body _ named _ _ _
      found =>
    rename_i ih
    obtain ⟨inner, more, rfl⟩ := map_eq_ok h
    have inside : Item.isMark .closeBrace (t :: r) = false := by
      simpa [Item.isMark, Item.token?] using other
    exact seals_readAccessors_on inside front modified named (.inl ⟨found, rfl⟩) (ih more)
  | case6 t r other attributes lists _ front modifiers start _ modified accessor body _ named _ _ _
      found =>
    rename_i ih
    obtain ⟨inner, more, rfl⟩ := map_eq_ok h
    have inside : Item.isMark .closeBrace (t :: r) = false := by
      simpa [Item.isMark, Item.token?] using other
    exact seals_readAccessors_on inside front modified named (.inr ⟨.inl found, rfl⟩) (ih more)
  | case7 t r other attributes lists _ front modifiers start _ modified accessor body _ named _ _ _
      found =>
    rename_i ih
    obtain ⟨inner, more, rfl⟩ := map_eq_ok h
    have inside : Item.isMark .closeBrace (t :: r) = false := by
      simpa [Item.isMark, Item.token?] using other
    exact seals_readAccessors_on inside front modified named (.inr ⟨.inr found, rfl⟩) (ih more)

theorem seals_readFieldNames {name : String} {s : Step (List String) ts}
    (h : readFieldNames name ts = .ok s) :
    Seals O (fun ts us => Takes (readFieldNames name ts) s.value us) ts s.rest := by
  fun_induction readFieldNames name ts with
  | case1 | case2 | case5 => cases h
  | case3 name ts _ t r _ default comma next after _ named ih =>
    obtain ⟨inner, more, rfl⟩ := map_eq_ok h
    have last := keeps_skipDefault (O := O) ts
    rw [show skipDefault ts = t :: r from congrArg Left.rest default] at last
    refine (last.seals ((Keeps.first t r).seals ((keeps_readName named).seals (ih more)))).imp ?_
    rintro ts us ⟨_, default, _, rfl, _, named, more⟩
    exact takes_readFieldNames_more default comma named more
  | case4 name ts _ t r _ default _ semicolon =>
    cases h
    have last := keeps_skipDefault (O := O) ts
    rw [show skipDefault ts = t :: r from congrArg Left.rest default] at last
    refine (last.seals (.first (semicolon ▸ Token.isQuiet_mark _) r)).imp ?_
    rintro ts us ⟨_, default, rfl⟩
    exact takes_readFieldNames_last default semicolon

theorem takes_readProperty_default {src : List Char} {readable : Bool} {after : List Item}
    (accessors : Takes (readAccessors src ts) readable after)
    (equals : Item.isMark .equals after = true)
    (ends : Takes (readMark .semicolon (skipDefault after)) () rest) :
    Takes (readProperty src ts) readable rest := by
  obtain ⟨_, read⟩ := accessors
  obtain ⟨_, ends⟩ := ends
  obtain ⟨_, default⟩ := leaves_passDefault (rfl : skipDefault after = _)
  rw [takes_iff, readProperty]
  simp only [read, equals, if_true]
  rw [default]
  simp only [ends]
  rfl

theorem stops_readProperty {s : Step Bool ts} (h : readProperty O.source ts = .ok s) :
    Stops O (fun ts us => Takes (readProperty O.source' ts) s.value us) ts s.rest := by
  rw [readProperty] at h
  split at h
  · cases h
  · rename_i readable after _ accessors
    split at h
    · rename_i equals
      obtain ⟨inner, semicolon, rfl⟩ := map_eq_ok h
      have ends : readMark .semicolon (skipDefault after) = .ok inner := semicolon
      refine ((seals_readAccessors accessors).keeps.seals ((keeps_skipDefault after).near.seals
        (seals_readMark ends))).stops.imp ?_
      rintro ts us ⟨_, accessors, _, ⟨near, rfl⟩, _, ends⟩
      exact takes_readProperty_default accessors ((near.isMark _).trans equals) ends
    · rename_i plain
      cases h
      obtain ⟨taken, whole, firm, again⟩ := seals_readAccessors accessors
      refine ⟨taken, whole, firm, fun shared => .inl fun us apart => ?_⟩
      refine takes_readProperty_accessors (again shared us) ?_
      exact Bool.eq_false_iff.mpr fun found => plain (apart _ (by decide) found)

/-- A member that begins with a mark that none closes with. -/
theorem stops_passMember {m : Mark} (found : Item.token? ts = some (.mark m))
    (other : m ≠ .closeBrace) (some : Skip.wholeMember ts ≠ []) :
    Stops O (fun us rest => Item.token? us = .some (.mark m) ∧ Skip.wholeMember us = rest) ts
      (Skip.wholeMember ts) := by
  obtain ⟨t, r, rfl, token⟩ := token?_eq_some found
  have other : t.token ≠ .mark .closeBrace := by simpa [token] using other
  refine (stops_passed (token ▸ Token.isQuiet_mark m) other some).near.imp ?_
  exact fun ts us passed => ⟨passed.1.token?.trans found, passed.2⟩

theorem stops_readMemberTail {name : String} {l : Left (List String) ts}
    (h : readMemberTail O.source name ts = .ok l) (some : l.rest ≠ []) :
    Stops O (fun ts us => Passes (readMemberTail O.source' name ts) l.value us) ts l.rest := by
  unfold readMemberTail at h
  split at h
  case h_1 found | h_2 found | h_3 found =>
    cases h
    refine (stops_passMember found (by decide) some).imp ?_
    rintro ts us ⟨found, passed⟩
    unfold readMemberTail
    simp only [found]
    exact passes_passMember [] passed
  case h_4 found =>
    obtain ⟨s, property, rfl⟩ := map_eq_ok h
    have brace : Item.isMark .openBrace ts = true := by simp [Item.isMark, found]
    refine ((seals_tail brace).keeps.stops (stops_readProperty property)).imp ?_
    rintro ts us ⟨_, ⟨brace, rfl⟩, _, property⟩
    have found : Item.token? ts = .some (.mark .openBrace) := by simpa [Item.isMark] using brace
    unfold readMemberTail
    simp only [found, property]
    exact ⟨_, rfl⟩
  case h_5 found =>
    cases h
    refine (stops_passMember found (by decide) some).imp ?_
    rintro ts us ⟨found, passed⟩
    unfold readMemberTail
    simp only [found]
    exact passes_passMember [name] passed
  case h_6 found | h_7 found | h_8 found =>
    obtain ⟨s, fields, rfl⟩ := map_eq_ok h
    refine (seals_readFieldNames fields).stops.near.imp ?_
    rintro ts us ⟨near, _, fields⟩
    unfold readMemberTail
    simp only [near.token?.trans found, fields]
    exact ⟨_, rfl⟩
  case h_9 => cases h

theorem isUntranslated_ident {typeName name : String} {t : Item} (token : t.token = .ident name)
    (r : List Item) : isUntranslated typeName (t :: r) =
      (name == typeName && Item.token? r == some (.mark .openParen)) := by
  simp only [isUntranslated, Item.token?, List.head?_cons, Option.map_some, token]
  rfl

theorem isUntranslated_other {typeName : String} {t : Item}
    (other : ∀ name, t.token ≠ .ident name)
    (r r' : List Item) : isUntranslated typeName (t :: r) = isUntranslated typeName (t :: r') := by
  simp only [isUntranslated, Item.token?, List.head?_cons, Option.map_some]
  cases token : t.token with
  | ident name => exact absurd token (other name)
  | mark m => cases m <;> rfl
  | _ => rfl

theorem isUntranslated_near {typeName : String} (near : Near ts us) :
    isUntranslated typeName us = isUntranslated typeName ts := by
  cases near with
  | two => rfl
  | one r r' quiet => exact isUntranslated_other quiet.1 r' r

/-- A constructor is known by two items, any other member that is passed over by one. -/
theorem stops_untranslated {typeName : String} (h : isUntranslated typeName ts = true)
    (some : Skip.wholeMember ts.tail ≠ []) :
    Stops O (fun us rest => isUntranslated typeName us = true ∧
      Skip.wholeMember us.tail = rest) ts (Skip.wholeMember ts.tail) := by
  cases ts with
  | nil => cases h
  | cons t r =>
    by_cases named : ∃ name, t.token = .ident name
    · obtain ⟨name, token⟩ := named
      rw [isUntranslated_ident token, Bool.and_eq_true, beq_iff_eq] at h
      have opens := beq_iff_eq.mp h.2
      refine ((Keeps.first t r).stops (stops_passMember opens (by decide) some)).imp ?_
      rintro _ us ⟨q, rfl, opens, passed⟩
      rw [isUntranslated_ident token, Bool.and_eq_true, beq_iff_eq]
      exact ⟨⟨h.1, beq_iff_eq.mpr opens⟩, passed⟩
    · have other : ∀ name, t.token ≠ .ident name := fun name token => named ⟨name, token⟩
      have quiet : t.token.IsQuiet := by
        refine ⟨other, ?_, ?_⟩ <;>
          · intro token
            simp [isUntranslated, Item.token?, token] at h
      refine (stops_wholeMember (.inl quiet) some).imp ?_
      rintro _ us ⟨q, rfl, passed⟩
      exact ⟨isUntranslated_other other r q ▸ h, passed⟩

theorem stops_readMember {typeName : String} {lead : Lead} {modifiers : Modifiers}
    {s : Step (List Member) ts} (h : readMember O.source typeName lead modifiers ts = .ok s)
    (some : s.rest ≠ []) :
    Stops O (fun ts us => Takes (readMember O.source' typeName lead modifiers ts) s.value us) ts
      s.rest := by
  rw [readMember] at h
  split at h
  · rename_i untranslated
    cases h
    refine (stops_untranslated untranslated some).imp ?_
    rintro ts us ⟨untranslated, passed⟩
    exact takes_readMember_untranslated untranslated passed
  · rename_i translated
    rw [Bool.not_eq_true] at translated
    split at h
    · cases h
    · rename_i written after _ type
      split at h
      · rename_i found
        cases h
        obtain ⟨t, r, k, rfl, token, known⟩ : ∃ t r k, after = t :: r ∧
            t.token = .keyword k ∧ (k = .thisKw ∨ k = .operatorKw) := by
          rcases (Bool.or_eq_true _ _).mp found with found | found <;>
            · obtain ⟨t, r, rfl, token⟩ := exists_of_isKeyword found
              exact ⟨t, r, _, rfl, token, by decide⟩
        have quiet : t.token.IsQuiet := by
          rw [token]
          rcases known with rfl | rfl <;> exact ⟨nofun, nofun, nofun⟩
        have plain : ∀ m, Item.isMark m (t :: r) = false := by
          intro m
          simp [Item.isMark, Item.token?, token]
        have first := (keeps_readWrittenType (O := O) type (plain _) (plain _)).near
        refine (first.stops (stops_passed quiet (by simp [token]) some).near).imp ?_
        rintro ts us ⟨mid, ⟨near, type⟩, near', passed⟩
        refine takes_readMember_typed ((isUntranslated_near near).trans translated) type ?_ passed
        rwa [Item.isKeyword, Item.isKeyword, near'.token?]
      · split at h
        · cases h
        · rename_i name more _ named
          obtain ⟨l, tail, rfl⟩ := map_eq_ok h
          have plain : ∀ m, Item.isMark m after = false := fun m => not_mark_of_readName named
          have first := (keeps_readWrittenType (O := O) type (plain _) (plain _)).near
          refine (first.stops ((keeps_readName named).stops (stops_readMemberTail tail some))).imp
            ?_
          rintro ts us ⟨_, ⟨near, type⟩, _, named, tail⟩
          obtain ⟨i, rfl, token⟩ := exists_of_takes_readName named
          exact takes_readMember ((isUntranslated_near near).trans translated) type token tail

end Ambient.Host
