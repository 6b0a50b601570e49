import Ambient.Proofs.Insertion.Places
import Ambient.Proofs.Insertion.Types

/-!
# Members that are passed over

Methods, constructors, destructors, operators, indexers, events and delegates add nothing to the
type they stand in, whatever their modifiers, parameters and blocks are. What such a member is is
said by its tokens.
-/
namespace Ambient

namespace Token

/-- A keyword that may stand in front of a declaration. -/
def IsModifier (t : Token) : Prop :=
  ∃ k, t = .keyword k ∧ (Host.Modifiers.absent.add? k).isSome = true

/-- A member of the class `owner` behind its modifiers and up to its end: an event, a delegate or an
operator named by its keyword, a destructor, a constructor, a method, an indexer or an operator
behind its type. A name that goes on with a dot or with arguments is that of an interface whose
member is implemented. -/
inductive IsHead (owner : String) : List Token → Prop
  | keyword {k : Keyword} {signature : List Token} :
    k ∈ [Keyword.delegateKw, .eventKw, .operatorKw, .implicitKw, .explicitKw] →
      Bodied false signature → IsHead owner (.keyword k :: signature)
  | destructor {signature : List Token} : Bodied false signature →
    IsHead owner (.mark .tilde :: signature)
  | constructor {signature : List Token} : Bodied false (.mark .openParen :: signature) →
    IsHead owner (.ident owner :: .mark .openParen :: signature)
  | method {type signature : List Token} {name : String} {m : Mark} : IsType type →
    m ∈ [Mark.openParen, .openAngle, .dot] → Bodied false (.mark m :: signature) →
    IsHead owner (type ++ .ident name :: .mark m :: signature)
  | typed {type signature : List Token} {k : Keyword} : IsType type →
    k ∈ [Keyword.thisKw, .operatorKw] → Bodied false signature →
    IsHead owner (type ++ .keyword k :: signature)

/-- A member with its modifiers up to its end. Right before a parenthesis
`partial` is no modifier. -/
inductive IsFront (owner : String) : List Token → Prop
  | mk {modifiers head : List Token} : (∀ t ∈ modifiers, t.IsModifier) →
    (modifiers.getLast? = some (.keyword .partialKw) → head.head? ≠ some (.mark .openParen)) →
    IsHead owner head → IsFront owner (modifiers ++ head)

/-- A block, or the semicolon in its place. -/
inductive IsEnd : List Token → Prop
  | semicolon : IsEnd [.mark .semicolon]
  | block {inside : List Token} : Braced inside →
    IsEnd (.mark .openBrace :: (inside ++ [.mark .closeBrace]))

/-- A whole member that adds nothing. -/
inductive Untranslated (owner : String) : List Token → Prop
  | mk {front ending : List Token} : IsFront owner front → IsEnd ending →
    Untranslated owner (front ++ ending)

variable {owner : String} {ts : List Token}

theorem bodied_of_modifiers (all : ∀ t ∈ ts, t.IsModifier) : Bodied false ts := by
  induction ts with
  | nil => exact .nil
  | cons t more ih =>
    obtain ⟨k, rfl, -⟩ := all t List.mem_cons_self
    exact .flat (isFlat_keyword k) (by simp) (ih fun u hu => all u (List.mem_cons_of_mem _ hu))

theorem IsHead.bodied (h : IsHead owner ts) : Bodied false ts := by
  cases h with
  | keyword _ signature => exact .flat (isFlat_keyword _) (by simp) signature
  | destructor signature => exact .flat (by decide) (by decide) signature
  | constructor signature => exact .flat (isFlat_ident _) (by simp) signature
  | method type _ signature => exact type.bodied.append (.flat (isFlat_ident _) (by simp) signature)
  | typed type _ signature =>
    exact type.bodied.append (.flat (isFlat_keyword _) (by simp) signature)

theorem IsFront.bodied (h : IsFront owner ts) : Bodied false ts := by
  cases h with
  | mk all _ head => exact (bodied_of_modifiers all).append head.bodied

theorem IsEnd.braced (h : IsEnd ts) : Braced ts := by
  cases h with
  | semicolon => exact .other (by decide) (by decide) .nil
  | block inside => exact .block inside .nil

theorem Untranslated.braced (h : Untranslated owner ts) : Braced ts := by
  cases h with
  | mk front ending => exact front.bodied.braced.append ending.braced

end Token

namespace Host
open Token
variable {owner space : String} {src : List Char} {ts rest : List Item}

/-- A semicolon behind a block goes with the member. -/
theorem wholeMember_end {front ending : List Item} (bodied : Bodied false (front.map (·.token)))
    (h : IsEnd (ending.map (·.token))) (rest : List Item) :
    Skip.wholeMember (front ++ (ending ++ rest)) = rest ∨
      Skip.wholeMember (front ++ (ending ++ rest)) = dropMark .semicolon rest := by
  generalize spelled : ending.map (·.token) = tokens at h
  cases h with
  | semicolon =>
    obtain ⟨t, _, rfl, ends, nothing⟩ := List.map_eq_cons_iff.mp spelled
    rw [List.map_eq_nil_iff.mp nothing]
    exact .inl (Skip.wholeMember_semicolon bodied ends)
  | block braced =>
    obtain ⟨opens, later, rfl, opening, others⟩ := List.map_eq_cons_iff.mp spelled
    obtain ⟨inside, last, rfl, rfl, closed⟩ := List.map_eq_append_iff.mp others
    obtain ⟨closes, _, rfl, closing, nothing⟩ := List.map_eq_cons_iff.mp closed
    rw [List.map_eq_nil_iff.mp nothing, List.cons_append, List.append_assoc, List.singleton_append]
    exact .inr (Skip.wholeMember_block bodied opening braced closing)

theorem exists_add? {k : Keyword} (h : (Modifiers.absent.add? k).isSome = true) (m : Modifiers) :
    ∃ m', m.add? k = some m' := by
  cases k <;> first | exact ⟨_, rfl⟩ | cases h

theorem exists_readModifiers {modifiers : List Token} (all : ∀ t ∈ modifiers, t.IsModifier)
    (unnamed : modifiers.getLast? = some (.keyword .partialKw) →
      Item.isMark .openParen rest = false)
    (stops : ∀ m, Leaves (readModifiers m rest) m rest) : ∀ (read : List Item) (m : Modifiers),
      read.map (·.token) = modifiers →
      ∃ m', Leaves (readModifiers m (read ++ rest)) m' rest := by
  induction modifiers with
  | nil =>
    intro read m spelled
    rw [List.map_eq_nil_iff.mp spelled]
    exact ⟨m, stops m⟩
  | cons t others ih =>
    intro read m spelled
    obtain ⟨i, more, rfl, rfl, later⟩ := List.map_eq_cons_iff.mp spelled
    obtain ⟨k, keyword, modifies⟩ := all _ List.mem_cons_self
    obtain ⟨m', added⟩ := exists_add? modifies m
    have called : ¬ (k = .partialKw ∧ Item.isMark .openParen (more ++ rest) = true) := by
      rintro ⟨rfl, paren⟩
      cases more with
      | nil =>
        rw [List.map_nil] at later
        subst later
        cases paren.symm.trans (unnamed (congrArg some keyword))
      | cons j r =>
        subst later
        obtain ⟨_, keyword, -⟩ := all j.token (List.mem_cons_of_mem _ List.mem_cons_self)
        simp [Item.isMark, Item.token?, keyword] at paren
    obtain ⟨m'', behind⟩ := ih (fun u hu => all u (List.mem_cons_of_mem _ hu))
      (fun last => unnamed (by
        cases others with
        | nil => cases last
        | cons => exact last)) more m' later
    exact ⟨m'', leaves_readModifiers_more keyword added called behind⟩

/-- What a member starts with behind its modifiers. -/
theorem exists_head {tokens : List Token} (h : IsHead owner tokens) (read : List Item)
    (spelled : read.map (·.token) = tokens) : ∃ t more, read = t :: more ∧
      (t.token = .mark .tilde ∨ t.token = .mark .openParen ∨
        (∃ name, t.token = .ident name) ∨
        ∃ k ∈ [Keyword.delegateKw, .eventKw, .operatorKw, .implicitKw, .explicitKw],
          t.token = .keyword k) := by
  have typed : ∀ {type others : List Token}, IsType type →
      tokens = type ++ others → ∃ t more,
      read = t :: more ∧ (t.token = .mark .openParen ∨ ∃ name, t.token = .ident name) := by
    rintro type others (segments | elements) rfl
    · obtain ⟨t, more, rfl, token, -⟩ := List.map_eq_cons_iff.mp spelled
      exact ⟨t, more, rfl, .inr ⟨_, token⟩⟩
    · obtain ⟨t, more, rfl, token, -⟩ := List.map_eq_cons_iff.mp spelled
      exact ⟨t, more, rfl, .inl token⟩
  cases h with
  | @keyword k _ listed =>
    obtain ⟨t, more, rfl, token, -⟩ := List.map_eq_cons_iff.mp spelled
    exact ⟨t, more, rfl, .inr (.inr (.inr ⟨k, listed, token⟩))⟩
  | destructor =>
    obtain ⟨t, more, rfl, token, -⟩ := List.map_eq_cons_iff.mp spelled
    exact ⟨t, more, rfl, .inl token⟩
  | constructor =>
    obtain ⟨t, more, rfl, token, -⟩ := List.map_eq_cons_iff.mp spelled
    exact ⟨t, more, rfl, .inr (.inr (.inl ⟨_, token⟩))⟩
  | method type | typed type =>
    obtain ⟨t, more, rfl, paren | named⟩ := typed type rfl
    · exact ⟨t, more, rfl, .inr (.inl paren)⟩
    · exact ⟨t, more, rfl, .inr (.inr (.inl named))⟩

/-- No modifier and no nested type starts there. -/
theorem starts_head (h : IsHead owner (ts.map (·.token))) (rest : List Item) :
    startsNestedType (ts ++ rest) = false ∧
    (∀ m, Leaves (readModifiers m (ts ++ rest)) m (ts ++ rest)) ∧
      ∀ m ∈ [Mark.closeBrace, .semicolon, .openBracket, .equals],
        Item.isMark m (ts ++ rest) = false := by
  obtain ⟨t, more, rfl, token⟩ := exists_head h ts rfl
  rw [List.cons_append]
  have marks : ∀ m ∈ [Mark.closeBrace, .semicolon, .openBracket, .equals],
      t.token ≠ .mark m := by
    intro m listed marked
    rcases token with token | token | ⟨name, token⟩ | ⟨k, _, token⟩ <;>
      rw [marked] at token <;>
      cases token <;> simp at listed
  refine ⟨?_, fun m => ?_,
    fun m listed => by simpa [Item.isMark, Item.token?] using marks m listed⟩
  · rcases token with token | token | ⟨name, token⟩ | ⟨k, listed, token⟩
    case inr.inr.inr =>
      simp only [List.mem_cons, List.not_mem_nil, or_false] at listed
      rcases listed with rfl | rfl | rfl | rfl | rfl <;> simp [startsNestedType, Item.token?, token]
    all_goals simp [startsNestedType, Item.token?, token]
  · rcases token with token | token | ⟨name, token⟩ | ⟨k, listed, token⟩
    case inr.inr.inr =>
      refine leaves_readModifiers_other token ?_
      simp only [List.mem_cons, List.not_mem_nil, or_false] at listed
      rcases listed with rfl | rfl | rfl | rfl | rfl <;> rfl
    all_goals exact leaves_readModifiers_keep (by simp [Item.token?, token])

/-- A type in front of what no parenthesis begins. -/
theorem exists_readWrittenType (src : List Char) (owner : String) {tokens : List Token}
    (h : IsType tokens) {i : Item} (paren : i.token ≠ .mark .openParen) {front : List Item}
    (spelled : front.map (·.token) = tokens) (rest : List Item)
    (ends : TypeSyntax.EndsType (i :: rest)) :
    isUntranslated owner (front ++ i :: rest) = false ∧
      ∃ written, Takes (readWrittenType src (front ++ i :: rest)) written (i :: rest) := by
  obtain ⟨value, _, read⟩ := TypeSyntax.reads h.derives front spelled (i :: rest) ends
  have starts := TypeSyntax.startsType h front spelled (i :: rest)
  refine ⟨(not_untranslated owner starts (by simpa [Item.isMark, Item.token?] using paren)).2.1,
    writtenText src (front ++ i :: rest) (i :: rest), ?_⟩
  rw [readWrittenType, read]
  exact ⟨_, rfl⟩

/-- What is left behind a member: a semicolon behind its block may go with it. -/
def LeftBehind (rest after : List Item) : Prop := after = rest ∨ after = dropMark .semicolon rest

/-- A member of these kinds is passed over to its end, and nothing comes of it. -/
theorem exists_readMember {head ending : List Item} (h : IsHead owner (head.map (·.token)))
    (ends : IsEnd (ending.map (·.token))) (lead : Lead) (modifiers : Modifiers)
    (rest : List Item) :
    ∃ after, LeftBehind rest after ∧
      Takes (readMember src owner lead modifiers (head ++ (ending ++ rest))) [] after := by
  have passed : ∀ {front : List Item}, Bodied false (front.map (·.token)) →
      LeftBehind rest (Skip.wholeMember (front ++ (ending ++ rest))) :=
    fun bodied => wholeMember_end bodied ends rest
  generalize spelled : head.map (·.token) = tokens at h
  cases h with
  | @keyword k _ listed signature =>
    obtain ⟨t, more, rfl, token, rfl⟩ := List.map_eq_cons_iff.mp spelled
    refine ⟨_, passed signature, takes_readMember_untranslated ?_ rfl⟩
    simpa [isUntranslated, Item.token?, token] using listed
  | destructor signature =>
    obtain ⟨t, more, rfl, token, rfl⟩ := List.map_eq_cons_iff.mp spelled
    refine ⟨_, passed signature, takes_readMember_untranslated ?_ rfl⟩
    simp [isUntranslated, Item.token?, token]
  | constructor signature =>
    obtain ⟨t, more, rfl, token, later⟩ := List.map_eq_cons_iff.mp spelled
    obtain ⟨u, behind, rfl, paren, -⟩ := List.map_eq_cons_iff.mp later
    refine ⟨_, @passed (u :: behind) (by rwa [later]), takes_readMember_untranslated ?_ rfl⟩
    simp [isUntranslated, Item.token?, Item.ahead, token, paren]
  | @method type signature name m typed listed bodied =>
    obtain ⟨front, others, rfl, rfl, later⟩ := List.map_eq_append_iff.mp spelled
    obtain ⟨i, behind, rfl, named, called⟩ := List.map_eq_cons_iff.mp later
    obtain ⟨translated, written, type⟩ :=
      exists_readWrittenType src owner typed (by simp [named]) rfl
      (behind ++ (ending ++ rest)) (TypeSyntax.endsType_ident named)
    have marked : Item.token? (behind ++ (ending ++ rest)) = some (.mark m) := by
      obtain ⟨t, more, rfl, marked, -⟩ := List.map_eq_cons_iff.mp called
      exact congrArg some marked
    have tail : Passes (readMemberTail src name (behind ++ (ending ++ rest))) []
        (Skip.wholeMember (behind ++ (ending ++ rest))) := by
      simp only [List.mem_cons, List.not_mem_nil, or_false] at listed
      rcases listed with rfl | rfl | rfl <;>
        · unfold readMemberTail
          simp only [marked]
          exact ⟨_, rfl⟩
    have member : Takes (readMember src owner lead modifiers
        (front ++ i :: (behind ++ (ending ++ rest)))) _ _ :=
      takes_readMember translated type (by rw [named, nameOf?]) tail
    refine ⟨_, passed (by rwa [called]), ?_⟩
    rw [List.append_assoc, List.cons_append]
    simpa using member
  | @typed type signature k typed listed bodied =>
    obtain ⟨front, others, rfl, rfl, later⟩ := List.map_eq_append_iff.mp spelled
    obtain ⟨i, behind, rfl, keyword, called⟩ := List.map_eq_cons_iff.mp later
    obtain ⟨translated, written, type⟩ :=
      exists_readWrittenType src owner typed (by simp [keyword]) rfl (behind ++ (ending ++ rest))
      (TypeSyntax.endsType_other (t := i) fun m => by simp [keyword])
    refine ⟨_, @passed (i :: behind) ?_, ?_⟩
    · rw [List.map_cons, keyword, called]
      exact .flat (isFlat_keyword k) (by simp) bodied
    · rw [List.append_assoc]
      refine takes_readMember_typed translated type ?_ rfl
      simp only [List.mem_cons, List.not_mem_nil, or_false] at listed
      rcases listed with rfl | rfl <;> simp [Item.isKeyword, Item.token?, keyword]

theorem exists_items {owner : String} {d : List Item} (h : Untranslated owner (d.map (·.token))) :
    ∃ front ending, d = front ++ ending ∧ IsFront owner (front.map (·.token)) ∧
      IsEnd (ending.map (·.token)) := by
  generalize spelled : d.map (·.token) = tokens at h
  cases h with
  | mk front ending =>
    obtain ⟨first, last, rfl, rfl, rfl⟩ := List.map_eq_append_iff.mp spelled
    exact ⟨first, last, rfl, front, ending⟩

/-- Neither a brace nor a semicolon nor an equals sign starts a member. -/
theorem isMark_untranslated {d : List Item} (h : Untranslated owner (d.map (·.token))) {m : Mark}
    (listed : m ∈ [Mark.closeBrace, .semicolon, .openBracket, .equals]) (rest : List Item) :
    Item.isMark m (d ++ rest) = false := by
  obtain ⟨front, ending, rfl, front', -⟩ := exists_items h
  generalize spelled : front.map (·.token) = tokens at front'
  cases front' with
  | mk all _ head =>
    obtain ⟨modifiers, start, rfl, rfl, rfl⟩ := List.map_eq_append_iff.mp spelled
    rw [List.append_assoc, List.append_assoc]
    cases modifiers with
    | nil => exact (starts_head head _).2.2 m listed
    | cons t r =>
      obtain ⟨k, keyword, -⟩ := all t.token List.mem_cons_self
      simp [Item.isMark, Item.token?, keyword]

/-- In the body of its class such a member is a portion that adds nothing. -/
theorem exists_extends_untranslated {d : List Item} (h : Untranslated owner (d.map (·.token)))
    (src : List Char) (space : String) (rest : List Item) : ∃ after, LeftBehind rest after ∧
      Extends src owner space (d ++ rest) (Body.addMembers []) after := by
  have apart : ∀ m ∈ [Mark.closeBrace, .semicolon, .openBracket, .equals],
      Item.isMark m (d ++ rest) = false := fun m listed => isMark_untranslated h listed rest
  obtain ⟨front, ending, rfl, front', ends⟩ := exists_items h
  generalize spelled : front.map (·.token) = tokens at front'
  cases front' with
  | mk all unnamed head =>
    obtain ⟨modifiers, start, rfl, rfl, rfl⟩ := List.map_eq_append_iff.mp spelled
    rw [List.append_assoc, List.append_assoc] at apart ⊢
    obtain ⟨plain, stops, _⟩ := starts_head head (ending ++ rest)
    have called : (modifiers.map (·.token)).getLast? = some (.keyword .partialKw) →
        Item.isMark .openParen (start ++ (ending ++ rest)) = false := by
      intro last
      obtain ⟨t, more, rfl, -⟩ := exists_head head start rfl
      simpa [Item.isMark, Item.token?] using unnamed last
    obtain ⟨modified, leaves⟩ := exists_readModifiers all called stops modifiers .absent rfl
    have bare := @passes_readAttributeLists_keep src _ (apart _ (by decide))
    have lead := passes_readLead_of bare rfl id
    obtain ⟨after, left, member⟩ := exists_readMember head ends _ modified rest
    exact ⟨after, left,
      .member ⟨apart _ (by decide), apart _ (by decide), _, lead, leaves⟩ plain member⟩

theorem outcome_dropMark (src : List Char) (typeName space : String) (ts : List Item) :
    outcome (readClassBody src typeName space (dropMark .semicolon ts)) =
      outcome (readClassBody src typeName space ts) := by
  by_cases ends : Item.isMark .semicolon ts = true
  · cases ts with
    | nil => cases ends
    | cons t r =>
      have dropped : dropMark .semicolon (t :: r) = r := if_pos ends
      have semicolon : t.token = .mark .semicolon := by simpa [Item.isMark, Item.token?] using ends
      have first : Extends src typeName space (t :: r) id r := .empty semicolon
      rw [dropped, first.outcome_eq]
      cases outcome (readClassBody src typeName space r) <;> rfl
  · rw [dropMark_eq (Bool.not_eq_true _ ▸ ends)]

/-- The body with the member is read as the body without it. -/
theorem outcome_untranslated {d : List Item} (h : Untranslated owner (d.map (·.token)))
    (src : List Char) (space : String) (rest : List Item) :
    outcome (readClassBody src owner space (d ++ rest)) =
      outcome (readClassBody src owner space rest) := by
  obtain ⟨after, left, extends'⟩ := exists_extends_untranslated h src space rest
  have same : outcome (readClassBody src owner space after) =
      outcome (readClassBody src owner space rest) := by
    rcases left with rfl | rfl
    · rfl
    · exact outcome_dropMark src owner space rest
  rw [extends'.outcome_eq, same]
  cases outcome (readClassBody src owner space rest) <;> rfl

/-- In front of a brace that closes what is around it, the member is passed over
and nothing else. -/
theorem wholeMember_untranslated {d : List Item} (h : Untranslated owner (d.map (·.token)))
    (closes : Item.isMark .closeBrace rest = true) : Skip.wholeMember (d ++ rest) = rest := by
  obtain ⟨front, ending, rfl, front', ends⟩ := exists_items h
  rw [List.append_assoc]
  rcases wholeMember_end front'.bodied ends rest with same | same
  · exact same
  · rw [same]
    refine if_neg fun semicolon => ?_
    simp only [Item.isMark, beq_iff_eq] at closes semicolon
    cases closes.symm.trans semicolon

/-- The reader stands in the body of the class `owner`, or in a body that is passed over. -/
def Stage.In (owner : String) : Stage → Prop
  | .members typeName _ => typeName = owner
  | .parts .. => False
  | .hidden _ => True

/-- Where such a member stands in the one source or not, another one stands in the other source, and
the texts behind are the same: all that is behind is read alike. -/
theorem gate_of_untranslated {O : Overlap} {p : Pairing} {stage : Stage}
    (carries : p.Carries O.spelling) (inside : stage.In owner) {d d' rest' : List Item}
    (first : d = [] ∨ Untranslated owner (d.map (·.token)))
    (second : Untranslated owner (d'.map (·.token))) (there : p.At rest rest') :
    Gate O p stage (d ++ rest) (d' ++ rest') := by
  have mirrors : Mirrors O p stage (d ++ rest) (d' ++ rest') := by
    have here := mirrors_of_at carries there stage
    cases stage with
    | members typeName space =>
      cases inside
      intro body after read
      have same : outcome (readClassBody O.source owner space (d ++ rest)) =
          outcome (readClassBody O.source owner space rest) := by
        rcases first with rfl | first
        · rfl
        · exact outcome_untranslated first O.source space rest
      obtain ⟨after', at', read'⟩ :=
        here body after (takes_iff.mpr (same.symm.trans (takes_iff.mp read)))
      exact ⟨after', at', takes_iff.mpr
        ((outcome_untranslated second O.source' space rest').trans (takes_iff.mp read'))⟩
    | parts => cases inside
    | hidden inner =>
      have passed : Skip.group .openBrace .closeBrace inner (d ++ rest) =
          Skip.group .openBrace .closeBrace inner rest := by
        rcases first with rfl | first
        · rfl
        · exact Skip.group_braced first.braced d rest inner rfl
      show p.At _ _
      rw [passed, Skip.group_braced second.braced d' rest' inner rfl]
      exact here
  refine ⟨fun m listed found => ?_, mirrors, fun closes => ?_, ?_⟩
  · have other : m ∈ [Mark.closeBrace, .semicolon, .openBracket, .equals] := by
      simp only [List.mem_cons, List.not_mem_nil, or_false] at listed ⊢
      exact listed.elim (fun h => .inr (.inl h)) fun h => .inr (.inr (.inr h))
    cases (isMark_untranslated second other rest').symm.trans found
  · rcases first with rfl | first
    · rw [wholeMember_untranslated second ((there.isMark _).trans closes)]
      exact mirrors_of_at carries there stage
    · cases (isMark_untranslated first (by decide) rest).symm.trans closes
  · rintro space braced rfl
    cases inside

end Host
end Ambient
