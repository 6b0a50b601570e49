import Ambient.Proofs.Source.Grammar

/-!
# Where the reading of a type may be cut off

A type is read in the same way from a shorter text, if this goes on far enough, and from a text in
which other things stand behind the type. Of what stands behind a type the reader looks at one item,
and at a second one only behind a dot or an opening bracket.
-/
namespace Ambient

/-- `Cuts ts us`: the items `us` are those of `ts` up to where they end, or up to an item behind
which the reader of types does not look. -/
inductive Cuts : List Item → List Item → Prop
  | nil (ts : List Item) : Cuts ts []
  | head {t : Item} (r r' : List Item) : t.token ≠ .mark .dot →
    t.token ≠ .mark .openBracket → Cuts (t :: r) (t :: r')
  | cons (t : Item) {r r' : List Item} : Cuts r r' → Cuts (t :: r) (t :: r')

/-- What `P` says of `ts` and the items `rest` left of it holds as well where `rest` is cut off or
goes on in another way. -/
def Survives (P : List Item → List Item → Prop) (ts rest : List Item) : Prop :=
  ∃ taken, ts = taken ++ rest ∧ ∀ us, Cuts rest us → P (taken ++ us) us

variable {ts us rest mid : List Item} {P Q : List Item → List Item → Prop}

namespace Cuts

theorem append (taken : List Item) (h : Cuts ts us) : Cuts (taken ++ ts) (taken ++ us) := by
  induction taken with
  | nil => exact h
  | cons t more ih => exact .cons t ih

theorem nil_or_cons (h : Cuts ts us) : us = [] ∨ ∃ t r r', ts = t :: r ∧ us = t :: r' := by
  cases h with
  | nil => exact .inl rfl
  | head r r' => exact .inr ⟨_, r, r', rfl, rfl⟩
  | cons t more => exact .inr ⟨t, _, _, rfl, rfl⟩

theorem isMark {m : Mark} (h : Cuts ts us) (other : ¬ Item.isMark m ts = true) :
    ¬ Item.isMark m us = true := by
  rcases h.nil_or_cons with rfl | ⟨t, r, r', rfl, rfl⟩
  · exact fun found => nomatch found
  · exact other

end Cuts

namespace Survives

theorem keep (h : ∀ us, Cuts ts us → P us us) : Survives P ts ts := ⟨[], rfl, h⟩

theorem item {t : Item} {r : List Item} (h : ∀ us, P (t :: us) us) : Survives P (t :: r) r :=
  ⟨[t], rfl, fun us _ => h us⟩

theorem imp (h : Survives P ts rest) (through : ∀ ts us, P ts us → Q ts us) :
    Survives Q ts rest := by
  obtain ⟨taken, whole, again⟩ := h
  exact ⟨taken, whole, fun us cut => through _ _ (again us cut)⟩

theorem trans (h : Survives P ts mid) (h' : Survives Q mid rest) :
    Survives (fun ts us => ∃ mid, P ts mid ∧ Q mid us) ts rest := by
  obtain ⟨front, rfl, first⟩ := h
  obtain ⟨behind, rfl, second⟩ := h'
  refine ⟨front ++ behind, (List.append_assoc front behind rest).symm, fun us cut => ?_⟩
  rw [List.append_assoc]
  exact ⟨behind ++ us, first _ (cut.append behind), second us cut⟩

end Survives

theorem survives_readName {s : Step String ts} (h : readName ts = .ok s) :
    Survives (fun ts us => Takes (readName ts) s.value us) ts s.rest := by
  obtain ⟨t, whole, named⟩ := exists_of_readName h
  exact ⟨[t], whole, fun us _ => takes_readName_of named⟩

/-- A mark at the front is taken whatever stands behind it. -/
theorem survives_tail {m : Mark} (h : Item.isMark m ts = true) :
    Survives (fun ts us => Item.isMark m ts = true ∧ us = ts.tail) ts ts.tail := by
  cases ts with
  | nil => cases h
  | cons t r => exact .item fun us => ⟨h, rfl⟩

theorem survives_readMark {m : Mark} {s : Step Unit ts} (h : readMark m ts = .ok s) :
    Survives (fun ts us => Item.isMark m ts = true ∧ Takes (readMark m ts) () us) ts s.rest := by
  obtain ⟨t, whole, marked⟩ := exists_of_readMark h
  refine ⟨[t], whole, fun us _ => ⟨?_, takes_readMark rfl marked⟩⟩
  simp [Item.isMark, Item.token?, marked]

/-- No two marks stand at one place. -/
theorem isMark_ne {m m' : Mark} (h : Item.isMark m ts = true) (other : m ≠ m') :
    Item.isMark m' ts = false := by
  rw [Item.isMark, beq_iff_eq] at h
  rw [Item.isMark, h]
  simpa using other

/-- Whether `global::` stands in front of a name shows in two items. -/
theorem survives_globalName {s : Step String (dropGlobal ts)}
    (h : readName (dropGlobal ts) = .ok s) :
    Survives (fun ts us => Takes (readName (dropGlobal ts)) s.value us) ts s.rest := by
  obtain ⟨name, whole, named⟩ := exists_of_readName h
  by_cases qualifier : isGlobalQualifier ts = true
  · match ts with
    | [] => simp [isGlobalQualifier, Item.ahead, Item.token?] at qualifier
    | [t] => simp [isGlobalQualifier, Item.ahead, Item.token?] at qualifier
    | t :: u :: r =>
      have drop : ∀ us, dropGlobal (t :: u :: us) = us := fun us => if_pos qualifier
      refine ⟨[t, u, name], congrArg (t :: u :: ·) ((drop r).symm.trans whole), fun us _ => ?_⟩
      show Takes (readName (dropGlobal (t :: u :: name :: us))) s.value us
      rw [drop]
      exact takes_readName_of named
  · have keep : dropGlobal ts = ts := if_neg qualifier
    refine ⟨[name], keep.symm.trans whole, fun us cut => ?_⟩
    have plain : ¬ isGlobalQualifier (name :: us) = true := by
      rw [keep.symm.trans whole] at qualifier
      rcases cut.nil_or_cons with rfl | ⟨_, r, r', rest, rfl⟩
      · simp [isGlobalQualifier, Item.ahead, Item.token?]
      · rw [rest] at qualifier
        exact qualifier
    show Takes (readName (dropGlobal (name :: us))) s.value us
    rw [dropGlobal, if_neg plain]
    exact takes_readName_of named

namespace TypeSyntax

theorem survives_dropElementName (ts : List Item) :
    Survives (fun ts us => dropElementName ts = us) ts (dropElementName ts) := by
  cases ts with
  | nil =>
    refine .keep fun us cut => ?_
    rcases cut.nil_or_cons with rfl | ⟨_, _, _, none, _⟩
    · rfl
    · cases none
  | cons t r =>
    by_cases named : ∃ name, t.token = .ident name
    · obtain ⟨name, token⟩ := named
      have drop : ∀ us, dropElementName (t :: us) = us := by
        intro us
        simp [dropElementName, Item.token?, token]
      rw [drop]
      exact .item drop
    · have keep : ∀ us, dropElementName (t :: us) = t :: us := by
        intro us
        unfold dropElementName
        split
        · rename_i name found
          exact absurd ⟨name, Option.some.inj found⟩ named
        · rfl
      rw [keep]
      refine .keep fun us cut => ?_
      rcases cut.nil_or_cons with rfl | ⟨_, _, r', same, rfl⟩
      · rfl
      · cases same
        exact keep r'

/-- The commas of a rank, through the bracket that closes it. -/
theorem survives_rank {s : Step Unit (dropCommas ts)}
    (opens : (Item.isMark .closeBracket ts || Item.isMark .comma ts) = true)
    (h : readMark .closeBracket (dropCommas ts) = .ok s) :
    Survives (fun ts us => (Item.isMark .closeBracket ts || Item.isMark .comma ts) = true ∧
      Takes (readMark .closeBracket (dropCommas ts)) () us) ts s.rest := by
  obtain ⟨closing, closed, mark⟩ := exists_of_readMark h
  let commas := ts.takeWhile (·.token == .mark .comma)
  have whole : ts = commas ++ closing :: s.rest := by
    rw [← closed]
    exact List.takeWhile_append_dropWhile.symm
  refine ⟨commas ++ [closing], by rw [List.append_assoc]; exact whole, fun us _ => ⟨?_, ?_⟩⟩
  · rw [whole] at opens
    cases front : commas with
    | nil =>
      rw [front] at opens
      exact opens
    | cons c more =>
      rw [front] at opens
      exact opens
  · refine takes_readMark ?_ mark
    have plain : ∀ i ∈ commas, (i.token == .mark .comma) = true :=
      fun i hi => List.all_eq_true.mp List.all_takeWhile i hi
    rw [List.append_assoc, dropCommas, List.dropWhile_append_of_pos plain]
    simp [mark]

theorem survives_readSuffixes {core : TypeSyntax} {l : Left TypeSyntax ts}
    (h : readSuffixes core ts = .ok l) :
    Survives (fun ts us => Passes (readSuffixes core ts) l.value us) ts l.rest := by
  have ends : ∀ core, Passes (readSuffixes core []) core [] := by
    intro core
    rw [readSuffixes]
    exact ⟨_, rfl⟩
  fun_induction readSuffixes core ts with
  | case1 core =>
    cases h
    refine .keep fun us cut => ?_
    rcases cut.nil_or_cons with rfl | ⟨_, _, _, none, _⟩
    · exact ends core
    · cases none
  | case2 core t r question nullable =>
    cases h
    refine .keep fun us cut => ?_
    rcases cut.nil_or_cons with rfl | ⟨_, _, r', same, rfl⟩
    · exact ends core
    · cases same
      rw [readSuffixes, question]
      simp only [nullable, if_true]
      exact ⟨_, rfl⟩
  | case3 core t r question single ih =>
    obtain ⟨inner, read, rfl⟩ := map_eq_ok h
    refine ((Survives.item (P := fun ts us => ts = t :: us) fun _ => rfl).trans (ih read)).imp ?_
    rintro _ us ⟨mid, rfl, _, more⟩
    rw [readSuffixes, question]
    simp only [single, more]
    exact ⟨_, rfl⟩
  | case4 core t r star ih =>
    obtain ⟨inner, read, rfl⟩ := map_eq_ok h
    refine ((Survives.item (P := fun ts us => ts = t :: us) fun _ => rfl).trans (ih read)).imp ?_
    rintro _ us ⟨mid, rfl, _, more⟩
    rw [readSuffixes, star]
    simp only [more]
    exact ⟨_, rfl⟩
  | case5 => cases h
  | case6 core t r bracket opens _ after short closes _ ih =>
    obtain ⟨inner, read, rfl⟩ := map_eq_ok h
    refine ((Survives.item (P := fun ts us => ts = t :: us) fun _ => rfl).trans
      ((survives_rank opens closes).trans (ih read))).imp ?_
    rintro _ us ⟨mid, rfl, after, ⟨opens, _, closed⟩, _, more⟩
    rw [readSuffixes, bracket]
    simp only [opens, if_true, closed, more]
    exact ⟨_, rfl⟩
  | case7 core t r bracket other =>
    cases h
    refine .keep fun us cut => ?_
    cases cut with
    | nil => exact ends core
    | head r r' _ no => exact absurd bracket no
    | @cons _ _ r' inside =>
      have other' : ¬ (Item.isMark .closeBracket r' || Item.isMark .comma r') = true := by
        rw [Bool.or_eq_true] at other ⊢
        rintro (closes | comma)
        · exact inside.isMark (fun found => other (.inl found)) closes
        · exact inside.isMark (fun found => other (.inr found)) comma
      rw [readSuffixes, bracket]
      simp only [other']
      exact ⟨_, rfl⟩
  | case8 core t r question star bracket =>
    cases h
    refine .keep fun us cut => ?_
    rcases cut.nil_or_cons with rfl | ⟨_, _, r', same, rfl⟩
    · exact ends core
    · cases same
      rw [readSuffixes]
      split
      · exact absurd ‹_› question
      · exact absurd ‹_› star
      · exact absurd ‹_› bracket
      · exact ⟨_, rfl⟩

theorem survives_dotted? {s : Step String ts} (h : dotted? ts = some s) :
    Survives (fun ts us => ∃ shorter, dotted? ts = some ⟨s.value, us, shorter⟩) ts
      s.rest := by
  obtain ⟨t, u, whole, dot, ident⟩ := exists_of_dotted? h
  refine ⟨[t, u], whole, fun us _ => ?_⟩
  show ∃ shorter, dotted? (t :: u :: us) = _
  rw [dotted?, dot, ident]
  exact ⟨_, rfl⟩

theorem dotted?_of_cuts (h : dotted? ts = none) (cut : Cuts ts us) : dotted? us = none := by
  match us, cut with
  | [], _ => rfl
  | [t], _ => rfl
  | t :: u :: q, .head _ _ dot _ =>
    rw [dotted?]
    split
    · exact absurd ‹_› dot
    · rfl
  | t :: u :: q, .cons _ inside =>
    rcases inside.nil_or_cons with none | ⟨_, r, _, rfl, same⟩
    · cases none
    · cases same
      rw [dotted?] at h ⊢
      split at h
      · cases h
      · rfl

theorem ListForm.ReadBy.survives {f : ListForm}
    {more : (us : List Item) → Read (Step (List TypeSyntax) us)} {ts : List Item}
    (reads : f.ReadBy more)
    (drops : ∀ ts, Survives (fun ts us => f.drop ts = us) ts (f.drop ts))
    (item : ∀ s : Step TypeSyntax ts, read ts = .ok s →
      Survives (fun ts us => Takes (read ts) s.value us) ts s.rest)
    (list : ∀ us, Shorter us ts → ∀ s : Step (List TypeSyntax) us, more us = .ok s →
      Survives (fun ts us => Takes (more ts) s.value us) us s.rest)
    {s : Step (List TypeSyntax) ts} (h : more ts = .ok s) :
    Survives (fun ts us => Takes (more ts) s.value us) ts s.rest := by
  obtain ⟨first, type,
      ⟨closes, last, left⟩ | ⟨comma, others, passed, again, shorter, value, left⟩⟩ :=
    reads.exists_of_ok h
  · have element := (item first type).trans (drops first.rest)
    rw [last, left]
    refine (element.trans (survives_tail closes)).imp ?_
    rintro ts us ⟨_, ⟨after, type, dropped⟩, closes, rfl⟩
    obtain ⟨t, whole, marked⟩ := exists_of_isMark closes
    exact reads.takes_last type (dropped.trans whole) marked
  · have element := (item first type).trans (drops first.rest)
    rw [value, left]
    refine ((element.trans (survives_readMark passed)).trans (list _ shorter others again)).imp ?_
    rintro ts us ⟨_, ⟨_, ⟨after, type, dropped⟩, -, _, comma⟩, again⟩
    obtain ⟨t, whole, marked⟩ := exists_of_readMark comma
    exact reads.takes_more type (dropped.trans whole) marked again

mutual
theorem survives_read {ts : List Item} {s : Step TypeSyntax ts} (h : read ts = .ok s) :
    Survives (fun ts us => Takes (read ts) s.value us) ts s.rest := by
  match ts with
  | [] =>
    rw [read] at h
    cases h
  | t :: r =>
    rw [read] at h
    split at h
    · rename_i opens
      split at h
      · cases h
      · rename_i items after shorter tuple
        obtain ⟨l, suffixes, rfl⟩ := map_eq_ok h
        refine ((Survives.item (P := fun ts us => ts = t :: us) fun _ => rfl).trans
          ((survives_readTuple tuple).trans (survives_readSuffixes suffixes))).imp ?_
        rintro _ us ⟨mid, rfl, after, ⟨_, tuple⟩, _, suffixes⟩
        rw [read, if_pos opens]
        simp only [tuple, suffixes]
        exact ⟨_, rfl⟩
    · split at h
      · cases h
      · rename_i core after shorter named
        obtain ⟨l, suffixes, rfl⟩ := map_eq_ok h
        refine ((survives_readNamed named).trans (survives_readSuffixes suffixes)).imp ?_
        rintro ts us ⟨mid, ⟨_, named⟩, _, suffixes⟩
        obtain ⟨t, r, rfl, plain⟩ := exists_of_readNamed named
        rw [read, if_neg plain]
        simp only [named, suffixes]
        exact ⟨_, rfl⟩
termination_by 5 * ts.length + 1
decreasing_by all_goals simp only [List.length_cons] at *; omega

theorem survives_readTuple {ts : List Item} {s : Step (List TypeSyntax) ts}
    (h : readTuple ts = .ok s) :
    Survives (fun ts us => Takes (readTuple ts) s.value us) ts s.rest :=
  ListForm.elements_readBy.survives survives_dropElementName (fun _ => survives_read)
    (fun _ _ _ => survives_readTuple) h
termination_by 5 * ts.length + 2
decreasing_by all_goals omega

theorem survives_readNamed {ts : List Item} {s : Step TypeSyntax ts} (h : readNamed ts = .ok s) :
    Survives (fun ts us => Takes (readNamed ts) s.value us) ts s.rest := by
  rw [readNamed] at h
  split at h
  · cases h
  · rename_i name after shorter first
    obtain ⟨l, segments, rfl⟩ := map_eq_ok h
    have short := dropGlobal_short ts
    refine ((survives_globalName first).trans (survives_readSegments segments)).imp ?_
    rintro ts us ⟨after, ⟨_, first⟩, _, segments⟩
    rw [readNamed]
    simp only [first, segments]
    exact ⟨_, rfl⟩
termination_by 5 * ts.length + 0
decreasing_by omega

theorem survives_readSegments {name : String} {args : List TypeSyntax} {ts : List Item}
    {l : Left TypeSyntax ts} (h : readSegments name args ts = .ok l) :
    Survives (fun ts us => Passes (readSegments name args ts) l.value us) ts l.rest := by
  rw [readSegments] at h
  split at h
  · cases h
  · rename_i args' after short read
    have front := survives_readArguments? read
    split at h
    · rename_i segment next shorter found
      obtain ⟨m, more, rfl⟩ := map_eq_ok h
      refine ((front.trans (survives_dotted? found)).trans (survives_readSegments more)).imp ?_
      rintro ts us ⟨next, ⟨after, ⟨_, front⟩, _, found⟩, _, more⟩
      rw [readSegments, front]
      simp only [found, more]
      exact ⟨_, rfl⟩
    · rename_i none
      split at h
      · rename_i colons
        split at h
        · cases h
        · rename_i segment next shorter read'
          obtain ⟨m, more, rfl⟩ := map_eq_ok h
          have short' := short_tail after
          refine ((front.trans ((survives_tail colons).trans (survives_readName read'))).trans
            (survives_readSegments more)).imp ?_
          rintro ts us
            ⟨next, ⟨after, ⟨_, front⟩, _, ⟨colons, rfl⟩, _, first⟩, _, more⟩
          have plain : dotted? after = Option.none :=
            dotted?_eq_none (isMark_ne colons (by decide))
          rw [readSegments, front]
          simp only [plain, colons, if_true, first, more]
          exact ⟨_, rfl⟩
      · rename_i plain
        cases h
        have stops : Survives (fun ts us => ts = us ∧ dotted? us = Option.none ∧
            ¬ Item.isMark .doubleColon us = true) after after :=
          .keep fun us cut => ⟨rfl, dotted?_of_cuts none cut, cut.isMark plain⟩
        refine (front.trans stops).imp ?_
        rintro ts us ⟨_, ⟨_, front⟩, rfl, none, plain⟩
        rw [readSegments, front]
        simp only [none, plain]
        exact ⟨_, rfl⟩
termination_by 5 * ts.length + 4
decreasing_by all_goals omega

theorem survives_readArguments? {args : List TypeSyntax} {ts : List Item}
    {l : Left (List TypeSyntax) ts} (h : readArguments? args ts = .ok l) :
    Survives (fun ts us => Passes (readArguments? args ts) l.value us) ts l.rest := by
  have ends : Passes (readArguments? args []) args [] := by
    rw [readArguments?]
    exact ⟨_, rfl⟩
  match ts with
  | [] =>
    rw [readArguments?] at h
    cases h
    refine .keep fun us cut => ?_
    rcases cut.nil_or_cons with rfl | ⟨_, _, _, none, _⟩
    · exact ends
    · cases none
  | t :: r =>
    rw [readArguments?] at h
    split at h
    · rename_i opens
      obtain ⟨s, inside, rfl⟩ := map_eq_ok h
      refine ((Survives.item (P := fun ts us => ts = t :: us) fun _ => rfl).trans
        (survives_readArguments inside)).imp ?_
      rintro _ us ⟨mid, rfl, _, inside⟩
      rw [readArguments?, if_pos opens, inside]
      exact ⟨_, rfl⟩
    · rename_i plain
      cases h
      refine .keep fun us cut => ?_
      rcases cut.nil_or_cons with rfl | ⟨_, _, r', same, rfl⟩
      · exact ends
      · cases same
        rw [readArguments?, if_neg plain]
        exact ⟨_, rfl⟩
termination_by 5 * ts.length + 3
decreasing_by
  simp only [List.length_cons]
  omega

theorem survives_readArguments {ts : List Item} {s : Step (List TypeSyntax) ts}
    (h : readArguments ts = .ok s) :
    Survives (fun ts us => Takes (readArguments ts) s.value us) ts s.rest :=
  ListForm.arguments_readBy.survives (fun _ => .keep fun _ _ => rfl) (fun _ => survives_read)
    (fun _ _ _ => survives_readArguments) h
termination_by 5 * ts.length + 2
decreasing_by all_goals omega
end

end TypeSyntax

end Ambient
