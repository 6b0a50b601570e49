import Ambient.Proofs.Canonical.Files
import Ambient.Proofs.Insertion.Keeping

/-!
# Attributes and types read alike

The readers of names, types and attribute lists take the same items where the text goes on in
another way, and keep the same texts. Each fact follows the recursion of its reader, with the rules
that put the steps of that reader together.
-/
namespace Ambient.Host
variable {O : Overlap} {ts us rest : List Item}

/-- Whether `global::` stands in front of a name shows in two items. -/
theorem keeps_globalName {s : Step String (dropGlobal ts)} (h : readName (dropGlobal ts) = .ok s) :
    Keeps O (fun ts us => Takes (readName (dropGlobal ts)) s.value us) ts s.rest := by
  obtain ⟨name, whole, named⟩ := exists_of_readName h
  by_cases qualifier : isGlobalQualifier ts = true
  · match ts with
    | [] => simp [isGlobalQualifier, Item.ahead, Item.token?] at qualifier
    | [t] => simp [isGlobalQualifier, Item.ahead, Item.token?] at qualifier
    | t :: u :: r =>
      have drop : ∀ us, dropGlobal (t :: u :: us) = us := fun us => if_pos qualifier
      refine ⟨[t, u, name], congrArg (t :: u :: ·) ((drop r).symm.trans whole),
        fun _ us _ => ?_⟩
      show Takes (readName (dropGlobal (t :: u :: name :: us))) s.value us
      rw [drop]
      exact takes_readName_of named
  · have keep : dropGlobal ts = ts := if_neg qualifier
    refine ⟨[name], keep.symm.trans whole, fun _ us near => ?_⟩
    have plain : ¬ isGlobalQualifier (name :: us) = true := by
      rw [keep.symm.trans whole] at qualifier
      obtain ⟨_, r, r', rest, rfl⟩ := near.exists_cons
      rw [rest] at qualifier
      exact qualifier
    show Takes (readName (dropGlobal (name :: us))) s.value us
    rw [dropGlobal, if_neg plain]
    exact takes_readName_of named

theorem keeps_readDotted {name : String} {l : Left String ts} (h : readDotted name ts = .ok l) :
    Keeps O (fun ts us => Passes (readDotted name ts) l.value us) ts l.rest := by
  fun_induction readDotted name ts with
  | case1 name =>
    cases h
    exact .nil
  | case2 => cases h
  | case3 name t r dot segment after shorter read ih =>
    obtain ⟨inner, more, rfl⟩ := map_eq_ok h
    refine (((keeps_readName read).trans (ih more)).behind t).imp ?_
    rintro _ us ⟨_, rfl, next, named, more⟩
    exact passes_readDotted_dot dot named more
  | case4 name t r other =>
    cases h
    refine .keep fun us near => passes_readDotted_keep ?_
    have plain : Item.isMark .dot (t :: r) = false := by
      simpa [Item.isMark, Item.token?] using other
    exact (near.isMark _).trans plain

theorem keeps_readQualifiedName {s : Step String ts} (h : readQualifiedName ts = .ok s) :
    Keeps O (fun ts us => Takes (readQualifiedName ts) s.value us) ts s.rest := by
  rw [readQualifiedName] at h
  split at h
  · cases h
  · rename_i name after shorter first
    obtain ⟨l, dotted, rfl⟩ := map_eq_ok h
    refine ((keeps_globalName first).trans (keeps_readDotted dotted)).imp ?_
    rintro ts us ⟨after, ⟨_, first⟩, _, dotted⟩
    rw [readQualifiedName]
    simp only [first, dotted]
    exact ⟨_, rfl⟩

/-- A type is kept as it is written. -/
theorem keeps_readWrittenType {s : Step String ts} (h : readWrittenType O.source ts = .ok s)
    (dot : Item.isMark .dot s.rest = false) (bracket : Item.isMark .openBracket s.rest = false) :
    Keeps O (fun ts us => Takes (readWrittenType O.source' ts) s.value us) ts s.rest := by
  rw [readWrittenType] at h
  split at h
  · cases h
  · rename_i type after shorter read
    cases h
    obtain ⟨taken, whole, again⟩ := TypeSyntax.survives_read read
    refine ⟨taken, whole, fun shared us near => ?_⟩
    obtain ⟨_, read⟩ := again us (near.cuts dot bracket)
    have text := (O.writtenText_eq shared after us).trans
      (congrArg (writtenText O.source · after) whole.symm)
    rw [takes_iff, readWrittenType, read]
    exact congrArg (fun text => Except.ok (text, us)) text

theorem keeps_writtenExpression (generics : Bool) (ts : List Item) :
    Keeps O (fun us rest => Leaves (writtenExpression O.source' generics us)
      (writtenExpression O.source generics ts).value rest) ts
        (Skip.expression generics .outside ts) := by
  obtain ⟨taken, whole, again⟩ := keeps_expression (O := O) generics .outside ts
  refine ⟨taken, whole, fun shared us near => ?_⟩
  have ends := again shared us near
  have text := O.writtenText_eq shared (Skip.expression generics .outside ts) us
  rw [← whole] at text
  refine leaves_iff.mpr ⟨?_, ends⟩
  show writtenText O.source' (taken ++ us) (Skip.expression generics .outside (taken ++ us)) = _
  rw [ends]
  exact text

theorem isNameBefore_near {ms : List Mark} (near : Near ts us) :
    isNameBefore ms us = isNameBefore ms ts := by
  cases near with
  | two => rfl
  | @one t r r' quiet =>
    have other : ∀ q, isNameBefore ms (t :: q) = false := by
      intro q
      unfold isNameBefore
      split
      · rename_i name _ found _
        exact absurd (Option.some.inj found) (quiet.1 name)
      · rfl
    rw [other, other]

theorem keeps_readArgumentName (ts : List Item) :
    Keeps O (fun us rest => Leaves (readArgumentName us) (readArgumentName ts).value rest) ts
      (readArgumentName ts).rest := by
  cases ts with
  | nil => exact .nil
  | cons t r =>
    by_cases before : (∃ name, t.token = .ident name) ∧
      isNameBefore [.equals, .colon] (t :: r) = true
    · obtain ⟨⟨name, token⟩, before⟩ := before
      cases r with
      | nil => simp [isNameBefore, Item.ahead, Item.token?, token] at before
      | cons u q =>
        have takes : ∀ q', readArgumentName (t :: u :: q') =
            ((Left.tail (some name) (u :: q')).behind t).left := by
          intro q'
          rw [readArgumentName, token]
          exact if_pos before
        rw [takes]
        refine ⟨[t, u], rfl, fun _ us _ => ?_⟩
        show Leaves (readArgumentName (t :: u :: us)) (some name) us
        rw [takes]
        exact leaves_iff.mpr ⟨rfl, rfl⟩
    · have keep : ∀ q', ¬ ((∃ name, t.token = .ident name) ∧
          isNameBefore [.equals, .colon] (t :: q') = true) →
            readArgumentName (t :: q') = .keep none (t :: q') := by
        intro q' other
        rw [readArgumentName]
        split
        · rename_i name token
          exact if_neg fun found => other ⟨⟨name, token⟩, found⟩
        · rfl
      rw [keep r before]
      refine .keep_cons fun q near => ?_
      rw [leaves_iff, keep q (isNameBefore_near near ▸ before)]
      exact ⟨rfl, rfl⟩

/-- What ends an argument that is one literal. -/
def endsArgument (ts : List Item) : Bool := Item.isMark .comma ts || Item.isMark .closeParen ts

theorem readArgumentValue_literal {src : List Char} {t : Item} {value : String}
    (token : t.token = .text value) (ends : endsArgument ts = true) :
    readArgumentValue src (t :: ts) = (Step.one value t ts).left := by
  rw [readArgumentValue, token]
  exact if_pos ends

theorem readArgumentValue_written {src : List Char} {t : Item}
    (other : ∀ value, t.token = .text value → endsArgument ts = false) :
    readArgumentValue src (t :: ts) = writtenExpression src true (t :: ts) := by
  rw [readArgumentValue]
  split
  · rename_i value token
    exact if_neg (Bool.not_eq_true _ ▸ other value token)
  · rfl

theorem keeps_readArgumentValue (ts : List Item) :
    Keeps O (fun us rest => Leaves (readArgumentValue O.source' us)
      (readArgumentValue O.source ts).value rest) ts (readArgumentValue O.source ts).rest := by
  cases ts with
  | nil => exact .nil
  | cons t r =>
    by_cases literal : ∃ value, t.token = .text value ∧ endsArgument r = true
    · obtain ⟨value, token, ends⟩ := literal
      rw [readArgumentValue_literal token ends]
      refine ⟨[t], rfl, fun _ us near => ?_⟩
      have ends' : endsArgument us = true := by
        rwa [endsArgument, near.isMark, near.isMark]
      show Leaves (readArgumentValue O.source' (t :: us)) value us
      rw [readArgumentValue_literal token ends']
      exact leaves_iff.mpr ⟨rfl, rfl⟩
    · have other : ∀ value, t.token = .text value → endsArgument r = false :=
        fun value token => Bool.eq_false_iff.mpr fun ends => literal ⟨value, token, ends⟩
      rw [readArgumentValue_written other]
      obtain ⟨taken, whole, again⟩ := keeps_writtenExpression (O := O) true (t :: r)
      refine ⟨taken, whole, fun shared us near => ?_⟩
      have read := again shared us near
      cases taken with
      | nil =>
        have plain : ∀ value, t.token ≠ .text value := by
          intro value token
          have short := (Skip.expression_short true ⟨0, 0, false⟩ r).1
          have same : (t :: r).length = (Skip.expression true .outside (t :: r)).length :=
            congrArg List.length whole
          rw [Skip.expression, token] at same
          exact absurd (same.trans_le short) (Nat.not_succ_le_self r.length)
        obtain ⟨_, _, r', begin, rfl⟩ := (whole ▸ near : Near (t :: r) us).exists_cons
        cases begin
        show Leaves (readArgumentValue O.source' (t :: r')) _ _
        rw [readArgumentValue_written fun value token => absurd token (plain value)]
        exact read
      | cons u more =>
        obtain ⟨rfl, rest⟩ := List.cons.inj whole
        have near' := near.append more
        have same : endsArgument (more ++ us) = endsArgument r := by
          rw [endsArgument, endsArgument, near'.isMark, near'.isMark]
          exact congrArg endsArgument rest.symm
        show Leaves (readArgumentValue O.source' (t :: (more ++ us))) _ _
        rw [readArgumentValue_written (same ▸ other)]
        exact read

theorem keeps_readArguments {s : Step (List Argument) ts}
    (h : readArguments O.source ts = .ok s) :
    Keeps O (fun ts us => Takes (readArguments O.source' ts) s.value us) ts s.rest := by
  fun_induction readArguments O.source ts with
  | case1 => cases h
  | case2 ts name afterName hn named value t r hv valued closes =>
    cases h
    have first := keeps_readArgumentName (O := O) ts
    have second := keeps_readArgumentValue (O := O) afterName
    rw [named] at first
    rw [valued] at second
    refine (first.trans (second.trans (.first t r))).imp ?_
    rintro ts us ⟨_, named, _, valued, rfl⟩
    exact takes_readArguments_last named valued closes
  | case3 ts name afterName hn named value t r hv valued _ comma ih =>
    obtain ⟨inner, more, rfl⟩ := map_eq_ok h
    have first := keeps_readArgumentName (O := O) ts
    have second := keeps_readArgumentValue (O := O) afterName
    rw [named] at first
    rw [valued] at second
    refine (first.trans (second.trans ((ih more).behind t))).imp ?_
    rintro ts us ⟨_, named, _, valued, _, rfl, more⟩
    exact takes_readArguments_more named valued comma more
  | case4 => cases h

theorem keeps_readArgumentList {l : Left (List Argument) ts}
    (h : readArgumentList O.source ts = .ok l) :
    Keeps O (fun ts us => Passes (readArgumentList O.source' ts) l.value us) ts l.rest := by
  unfold readArgumentList at h
  split at h
  · cases h
    exact .nil
  · rename_i t r
    split at h
    · rename_i opens
      split at h
      · rename_i closes
        cases h
        refine ((seals_tail closes).keeps.behind t).imp ?_
        rintro _ us ⟨_, rfl, closes, rfl⟩
        rw [readArgumentList, if_pos opens, if_pos closes]
        exact ⟨_, rfl⟩
      · rename_i other
        obtain ⟨s, arguments, rfl⟩ := map_eq_ok h
        refine ((keeps_readArguments arguments).near.behind t).imp ?_
        rintro _ us ⟨r', rfl, near, _, arguments⟩
        rw [readArgumentList, if_pos opens, near.isMark, if_neg other, arguments]
        exact ⟨_, rfl⟩
    · rename_i other
      cases h
      refine .keep_cons fun q _ => ?_
      rw [readArgumentList, if_neg other]
      exact ⟨_, rfl⟩

theorem takes_readAttributes_more {src : List Char} {q : String} {args : List Argument}
    {more : List Attribute} {us after : List Item}
    (named : Takes (readQualifiedName ts) q us) (list : Passes (readArgumentList src us) args rest)
    (comma : Item.isMark .comma rest = true)
    (others : Takes (readAttributes src rest.tail) more after) :
    Takes (readAttributes src ts) (⟨q, args⟩ :: more) after := by
  obtain ⟨_, named⟩ := named
  obtain ⟨_, list⟩ := list
  obtain ⟨_, others⟩ := others
  rw [readAttributes, named]
  simp only [list, comma, if_true, others]
  exact ⟨_, rfl⟩

theorem keeps_readAttributes {s : Step (List Attribute) ts}
    (h : readAttributes O.source ts = .ok s) :
    Keeps O (fun ts us => Takes (readAttributes O.source' ts) s.value us) ts s.rest := by
  fun_induction readAttributes O.source ts with
  | case1 => cases h
  | case2 => cases h
  | case3 ts q afterName hn named args after hl list comma _ ih =>
    obtain ⟨inner, more, rfl⟩ := map_eq_ok h
    refine ((keeps_readQualifiedName named).trans ((keeps_readArgumentList list).trans
      ((seals_tail comma).keeps.trans (ih more)))).imp ?_
    rintro ts us ⟨_, named, _, list, _, ⟨comma, rfl⟩, more⟩
    exact takes_readAttributes_more named list comma more
  | case4 ts q afterName hn named args after hl list _ =>
    obtain ⟨inner, closes, rfl⟩ := map_eq_ok h
    obtain ⟨t, rest, closes⟩ := exists_of_readMark closes
    have last : Keeps O (fun ts us => ts = t :: us) after inner.rest :=
      ⟨[t], rest, fun _ _ _ => rfl⟩
    refine ((keeps_readQualifiedName named).trans ((keeps_readArgumentList list).trans last)).imp ?_
    rintro ts us ⟨_, named, _, list, rfl⟩
    exact takes_readAttributes_one named list closes

theorem keeps_dropTarget (ts : List Item) :
    Keeps O (fun ts us => dropTarget ts = us) ts (dropTarget ts) := by
  by_cases before : isNameBefore [.colon] ts = true
  · match ts with
    | [] => simp [isNameBefore, Item.token?] at before
    | [t] =>
      unfold isNameBefore at before
      split at before
      · rename_i none
        cases none
      · cases before
    | t :: u :: r =>
      have drop : ∀ us, dropTarget (t :: u :: us) = us := fun us => if_pos before
      rw [drop]
      exact ⟨[t, u], rfl, fun _ us _ => drop us⟩
  · rw [dropTarget, if_neg before]
    exact .keep fun us near => if_neg (by rwa [isNameBefore_near near])

theorem passes_readAttributeLists_more {src : List Char} {t : Item} {after : List Item}
    {attributes more : List Attribute} (opens : t.token = .mark .openBracket)
    (list : Takes (readAttributes src (dropTarget ts)) attributes rest)
    (others : Passes (readAttributeLists src rest) more after) :
    Passes (readAttributeLists src (t :: ts)) (attributes ++ more) after := by
  obtain ⟨_, list⟩ := list
  obtain ⟨_, again⟩ := others
  rw [readAttributeLists, if_pos opens, list]
  simp only [again]
  exact ⟨_, rfl⟩

theorem keeps_readAttributeLists {l : Left (List Attribute) ts}
    (h : readAttributeLists O.source ts = .ok l) :
    Keeps O (fun ts us => Passes (readAttributeLists O.source' ts) l.value us) ts l.rest := by
  fun_induction readAttributeLists O.source ts with
  | case1 =>
    cases h
    exact .nil
  | case2 => cases h
  | case3 t r opens _ attributes after _ list ih =>
    obtain ⟨inner, more, rfl⟩ := map_eq_ok h
    refine (((keeps_dropTarget r).trans ((keeps_readAttributes list).trans (ih more))).behind t).imp
      ?_
    rintro _ us ⟨_, rfl, _, rfl, _, list, more⟩
    exact passes_readAttributeLists_more opens list more
  | case4 t r other =>
    cases h
    refine .keep_cons fun q _ => ?_
    rw [readAttributeLists, if_neg other]
    exact ⟨_, rfl⟩

theorem keeps_readLead {l : Left Lead ts} (h : readLead O.source ts = .ok l) :
    Keeps O (fun ts us => Passes (readLead O.source' ts) l.value us) ts l.rest := by
  rw [readLead] at h
  split at h
  · cases h
  · rename_i attributes rest short lists
    cases h
    obtain ⟨taken, whole, again⟩ := keeps_readAttributeLists lists
    refine ⟨taken, whole, fun shared us near => ?_⟩
    obtain ⟨_, lists⟩ := again shared us near
    have docs : Item.docsAt (taken ++ us) = Item.docsAt ts := by
      rw [(near.append taken).docsAt]
      exact congrArg Item.docsAt whole.symm
    rw [passes_iff, readLead, lists]
    show Except.ok (_, us) = Except.ok _
    rw [docs, near.docsAt]

end Ambient.Host
