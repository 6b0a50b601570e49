import Ambient.Host.FileReader
import Ambient.Proofs.Source.Steps

/-!
# Members read one by one

Each rule here says what one reader makes of the items in front of it: accessors, a member down to
the names it declares, and the body of a class, which goes on behind the member.
-/
namespace Ambient.Host
variable {src : List Char} {typeName space written name : String} {ts rest after start : List Item}
  {names : List String} {lead : Lead} {modifiers : Modifiers}

theorem passes_readAttributeLists_keep (h : Item.isMark .openBracket ts = false) :
    Passes (readAttributeLists src ts) [] ts := by
  refine ⟨short_self ts, ?_⟩
  cases ts with
  | nil =>
    rw [readAttributeLists]
    rfl
  | cons t r =>
    have no : t.token ≠ .mark .openBracket := by
      intro bracket
      simp [Item.isMark, Item.token?, bracket] at h
    rw [readAttributeLists, if_neg no]
    rfl

theorem leaves_readModifiers_keep {m : Modifiers}
    (h : ∀ k, Item.token? ts ≠ some (.keyword k)) :
    Leaves (readModifiers m ts) m ts := by
  refine ⟨short_self ts, ?_⟩
  cases ts with
  | nil =>
    rw [readModifiers]
    rfl
  | cons t r =>
    rw [readModifiers]
    split
    · rename_i k keyword
      exact absurd (congrArg some keyword) (h k)
    · rfl

/-- What follows the name of an accessor is passed over: a semicolon, an expression or a block. -/
def PassesBody (body more : List Item) : Prop :=
  (Item.token? body = some (.mark .semicolon) ∧ body.tail = more) ∨
    (Item.token? body = some (.mark .arrow) ∨ Item.token? body = some (.mark .openBrace)) ∧
      Skip.wholeMember body = more

theorem takes_readAccessors_on {afterLists body more : List Item} {attributes : List Attribute}
    {accessor : String} {readable : Bool} (inside : Item.isMark .closeBrace ts = false)
    (lists : Passes (readAttributeLists src ts) attributes afterLists)
    (modified : Leaves (readModifiers .absent afterLists) modifiers start)
    (named : Takes (readName start) accessor body) (passed : PassesBody body more)
    (others : Takes (readAccessors src more) readable rest) :
    Takes (readAccessors src ts) ((accessor == "get" && !modifiers.isRestricted) || readable)
      rest := by
  obtain ⟨shorter, lists⟩ := lists
  obtain ⟨shorter', modified⟩ := modified
  obtain ⟨taken, name⟩ := named
  obtain ⟨_, others⟩ := others
  cases ts with
  | nil =>
    have none := shorter.1
    have some := shorter'.1
    have further := taken.1
    rw [List.length_nil] at none
    omega
  | cons t r =>
    have other : t.token ≠ .mark .closeBrace := by simpa [Item.isMark, Item.token?] using inside
    rw [takes_iff, readAccessors, if_neg other]
    simp only [lists]
    generalize readModifiers .absent afterLists = left at modified ⊢
    subst modified
    simp only [name]
    rcases passed with ⟨found, rfl⟩ | ⟨found | found, rfl⟩ <;>
      · simp only [found, others]
        rfl

/-- An accessor without modifiers and without a body of its own. -/
theorem takes_readAccessors_auto {i semicolon : Item} {accessor : String} {readable : Bool}
    (named : i.token = .ident accessor) (ends : semicolon.token = .mark .semicolon)
    (others : Takes (readAccessors src ts) readable rest) :
    Takes (readAccessors src (i :: semicolon :: ts)) (accessor == "get" || readable) rest := by
  have lists : Passes (readAttributeLists src (i :: semicolon :: ts)) [] _ :=
    passes_readAttributeLists_keep (by simp [Item.isMark, Item.token?, named])
  have plain : Leaves (readModifiers .absent (i :: semicolon :: ts)) .absent _ :=
    leaves_readModifiers_keep (by simp [Item.token?, named])
  have read := takes_readAccessors_on (by simp [Item.isMark, Item.token?, named]) lists plain
    (takes_readName rfl named) (.inl ⟨congrArg some ends, rfl⟩) others
  simpa [Modifiers.absent] using read

theorem takes_readAccessors_close {i : Item} (closes : i.token = .mark .closeBrace) :
    Takes (readAccessors src (i :: rest)) false rest := by
  rw [takes_iff, readAccessors, if_pos closes]
  rfl

/-- The tokens of `{ get; set; }`. -/
def autoAccessors : List Token :=
  [.mark .openBrace, .ident "get", .mark .semicolon, .ident "set", .mark .semicolon,
    .mark .closeBrace]

theorem takes_readAccessors_autoAccessors {accessors : List Item}
    (auto : accessors.map (·.token) = autoAccessors) (rest : List Item) :
    ∃ opens inside, accessors = opens :: inside ∧ opens.token = .mark .openBrace ∧
      Takes (readAccessors src (inside ++ rest)) true rest := by
  obtain ⟨opens, inside, rfl, opening, tokens⟩ := List.map_eq_cons_iff.mp auto
  obtain ⟨get, _, rfl, hget, tokens⟩ := List.map_eq_cons_iff.mp tokens
  obtain ⟨s, _, rfl, hs, tokens⟩ := List.map_eq_cons_iff.mp tokens
  obtain ⟨set, _, rfl, hset, tokens⟩ := List.map_eq_cons_iff.mp tokens
  obtain ⟨s', _, rfl, hs', tokens⟩ := List.map_eq_cons_iff.mp tokens
  obtain ⟨closes, _, rfl, closing, tokens⟩ := List.map_eq_cons_iff.mp tokens
  rw [List.map_eq_nil_iff.mp tokens]
  refine ⟨opens, _, rfl, opening, ?_⟩
  exact takes_readAccessors_auto hget hs
    (takes_readAccessors_auto hset hs' (takes_readAccessors_close closing))

/-- The items `ts` begin a member: its attributes, modifiers and type, as the readers of these take
them, and then `after`. -/
structure Begins (src : List Char) (typeName : String) (ts : List Item) (lead : Lead)
    (modifiers : Modifiers) (written : String) (after : List Item) : Prop where
  inside : Item.isMark .closeBrace ts = false
  nonempty : Item.isMark .semicolon ts = false
  declared : ∃ afterLead start, Passes (readLead src ts) lead afterLead ∧
    Leaves (readModifiers .absent afterLead) modifiers start ∧
    startsNestedType start = false ∧ isUntranslated typeName start = false ∧
    Takes (readWrittenType src start) written after

theorem takes_readMember {i : Item} {more : List Item}
    (translated : isUntranslated typeName start = false)
    (type : Takes (readWrittenType src start) written (i :: more))
    (named : nameOf? i.token = some name)
    (tail : Passes (readMemberTail src name more) names rest) :
    Takes (readMember src typeName lead modifiers start)
      (if modifiers.exported then
        names.map fun name => plainMember name written (Summary.ofDocs lead.docs) lead.attributes
      else []) rest := by
  obtain ⟨_, type⟩ := type
  obtain ⟨_, first⟩ : Takes (readName (i :: more)) name more := takes_readName_of named
  obtain ⟨_, tail⟩ := tail
  have plain : (Item.isKeyword .thisKw (i :: more) || Item.isKeyword .operatorKw (i :: more)) =
      false := by
    have other : ∀ k, nameOf? (.keyword k) = none → Item.isKeyword k (i :: more) = false := by
      intro k none
      rw [← Bool.not_eq_true]
      intro same
      have token : i.token = .keyword k := by simpa [Item.isKeyword, Item.token?] using same
      rw [token, none] at named
      cases named
    rw [other _ rfl, other _ rfl]
    rfl
  rw [takes_iff, readMember, dif_neg (by rw [translated]; exact Bool.false_ne_true)]
  simp only [type, plain, Bool.false_eq_true, if_false, first, tail]
  rfl

/-- A member that is passed over from its first token on. -/
theorem takes_readMember_untranslated (untranslated : isUntranslated typeName start = true)
    (passed : Skip.wholeMember start.tail = rest) :
    Takes (readMember src typeName lead modifiers start) [] rest := by
  subst passed
  rw [readMember, dif_pos untranslated]
  exact ⟨_, rfl⟩

/-- A member that is passed over behind its type. -/
theorem takes_readMember_typed {more : List Item}
    (translated : isUntranslated typeName start = false)
    (type : Takes (readWrittenType src start) written more)
    (indexer : (Item.isKeyword .thisKw more || Item.isKeyword .operatorKw more) = true)
    (passed : Skip.wholeMember more = rest) :
    Takes (readMember src typeName lead modifiers start) [] rest := by
  subst passed
  obtain ⟨_, type⟩ := type
  rw [readMember, dif_neg (by rw [translated]; exact Bool.false_ne_true)]
  simp only [type, indexer, if_true]
  exact ⟨_, rfl⟩

theorem outcome_readClassBody {afterLead : List Item} {members : List Member}
    (inside : Item.isMark .closeBrace ts = false) (nonempty : Item.isMark .semicolon ts = false)
    (front : Passes (readLead src ts) lead afterLead)
    (modified : Leaves (readModifiers .absent afterLead) modifiers start)
    (plain : startsNestedType start = false)
    (member : Takes (readMember src typeName lead modifiers start) members rest) :
    outcome (readClassBody src typeName space ts) =
      (outcome (readClassBody src typeName space rest)).map
        (Prod.map (Body.addMembers members) id) := by
  obtain ⟨passed, front⟩ := front
  obtain ⟨passed', modified⟩ := modified
  obtain ⟨taken, member⟩ := member
  cases ts with
  | nil =>
    have none := passed.1
    have fewer := Nat.lt_of_lt_of_le taken.1 passed'.1
    rw [List.length_nil] at none
    omega
  | cons t r =>
    have other : t.token ≠ .mark .closeBrace ∧ t.token ≠ .mark .semicolon := by
      simpa [Item.isMark, Item.token?] using And.intro inside nonempty
    rw [readClassBody, if_neg other.1, if_neg other.2]
    simp only [front]
    generalize readModifiers .absent afterLead = left at modified ⊢
    subst modified
    simp only [plain, Bool.false_eq_true, if_false, member]
    cases readClassBody src typeName space rest <;> rfl

theorem Begins.readClassBody {i : Item} {more : List Item}
    (begins : Begins src typeName ts lead modifiers written (i :: more))
    (named : nameOf? i.token = some name)
    (tail : Passes (readMemberTail src name more) names rest) :
    outcome (readClassBody src typeName space ts) =
      (outcome (readClassBody src typeName space rest)).map
        (Prod.map (Body.addMembers (if modifiers.exported then
          names.map fun name => plainMember name written (Summary.ofDocs lead.docs) lead.attributes
          else [])) id) := by
  obtain ⟨afterLead, start, front, modified, plain, translated, type⟩ := begins.declared
  exact outcome_readClassBody begins.inside begins.nonempty front modified plain
    (takes_readMember translated type named tail)

end Ambient.Host
