import Ambient.Proofs.Insertion.Places
import Ambient.Proofs.Source.Closings

/-!
# Braces that are not closed

A reader goes into the body of a namespace, a class, an enum or a list of accessors with an opening
brace, and it leaves it behind the brace that closes it. Where the text ends inside, it is refused.
The body of an interface is passed over, and the end of the text ends this without complaint.
-/
namespace Ambient.Host
open Token
variable {src : List Char} {typeName space : String} {braced : Bool}
  {ts us start inside rest : List Item} {lead : Lead} {modifiers : Modifiers}

/-- What stands between braces: a namespace, a type, the accessors of a property, or the block of a
member that is passed over, such as a method, an indexer or an event. -/
inductive Enclosure where
  | space (name : String)
  | type (header : Header) (space : String)
  | accessors
  | block

/-- A member of the class `typeName` is passed over from here on. -/
inductive PassesOver (src : List Char) (typeName : String) : List Item → List Item → Prop
  | untranslated {ts : List Item} : isUntranslated typeName ts = true →
    PassesOver src typeName ts ts.tail
  | keyword {ts us : List Item} {written : String} : isUntranslated typeName ts = false →
    Takes (readWrittenType src ts) written us →
    (Item.isKeyword .thisKw us || Item.isKeyword .operatorKw us) = true →
      PassesOver src typeName ts us
  | named {ts afterType us : List Item} {written name : String} {m : Mark} :
    isUntranslated typeName ts = false → Takes (readWrittenType src ts) written afterType →
    (Item.isKeyword .thisKw afterType || Item.isKeyword .operatorKw afterType) = false →
    Takes (readName afterType) name us → m ∈ [Mark.openParen, .openAngle, .dot, .arrow] →
    Item.isMark m us = true → PassesOver src typeName ts us

/-- From this place the reader goes on behind an opening brace. -/
inductive Encloses (src : List Char) : Place → Enclosure → List Item → Prop
  | space {space name : String} {braced : Bool} {t brace : Item} {r inside : List Item} :
    t.token = .keyword .namespaceKw → Takes (readQualifiedName r) name (brace :: inside) →
    brace.token = .mark .openBrace →
    Encloses src ⟨.parts space braced, t :: r⟩ (.space (qualify space name)) inside
  | declared {space : String} {braced : Bool} {ts start inside : List Item} {lead : Lead}
    {modifiers : Modifiers} {header : Header} {brace : Item} : StartsDeclaration ts →
    Opens src ts lead modifiers start → Item.isKeyword .delegateKw start = false →
    Takes (readHeader src start) header (brace :: inside) → brace.token = .mark .openBrace →
    Encloses src ⟨.parts space braced, ts⟩ (.type header space) inside
  | nested {typeName space : String} {ts start inside : List Item} {lead : Lead}
    {modifiers : Modifiers} {header : Header} {brace : Item} : Opens src ts lead modifiers start →
    startsNestedType start = true → Takes (readHeader src start) header (brace :: inside) →
    brace.token = .mark .openBrace →
    Encloses src ⟨.members typeName space, ts⟩ (.type header space) inside
  | accessors {typeName space written name : String} {ts start afterType inside : List Item}
    {lead : Lead} {modifiers : Modifiers} {brace : Item} : Opens src ts lead modifiers start →
    startsNestedType start = false → isUntranslated typeName start = false →
    Takes (readWrittenType src start) written afterType →
    (Item.isKeyword .thisKw afterType || Item.isKeyword .operatorKw afterType) = false →
    Takes (readName afterType) name (brace :: inside) → brace.token = .mark .openBrace →
    Encloses src ⟨.members typeName space, ts⟩ .accessors inside
  | block {typeName space : String} {ts start front inside : List Item} {lead : Lead}
    {modifiers : Modifiers} {brace : Item} : Opens src ts lead modifiers start →
    startsNestedType start = false → PassesOver src typeName start (front ++ brace :: inside) →
    (∀ more, Skip.member 0 (front ++ more) = Skip.member 0 more) →
      brace.token = .mark .openBrace →
    Encloses src ⟨.members typeName space, ts⟩ .block inside

/-- Braces are balanced up to a closing brace with `after` behind it. -/
def Matched (inside after : List Item) : Prop :=
  ∃ taken brace, inside = taken ++ brace :: after ∧ brace.token = .mark .closeBrace ∧
    Braced (taken.map (·.token))

/-- What is between braces is closed in front of `after`: its own reader ends there, behind a
closing brace. Where it is passed over, this is the brace that matches the opening one. -/
inductive Closes (src : List Char) : Enclosure → List Item → List Item → Prop
  | space {name : String} {inside after : List Item} {parts : List Part} : Closing inside after →
    Passes (readNamespaceBody src name true inside) parts (dropMark .semicolon after) →
    Closes src (.space name) inside after
  | classBody {header : Header} {space : String} {inside after : List Item} {body : Body} :
    header.kind = .classKind → Closing inside after →
    Takes (readClassBody src header.name space inside) body after →
    Closes src (.type header space) inside after
  | enumBody {header : Header} {space : String} {inside after : List Item} {values : List Member} :
    header.kind = .enumKind → Closing inside after →
      Takes (readEnumValues src inside) values after →
    Closes src (.type header space) inside after
  | interfaceBody {header : Header} {space : String} {inside after : List Item} :
    header.kind = .interfaceKind → Matched inside after →
      Closes src (.type header space) inside after
  | accessors {inside after : List Item} {readable : Bool} : Closing inside after →
    Takes (readAccessors src inside) readable after → Closes src .accessors inside after
  | block {inside after : List Item} : Matched inside after → Closes src .block inside after

/-- What the reader leaves from this place on. -/
def Place.Leaves (src : List Char) (place : Place) (rest : List Item) : Prop :=
  match place.stage with
  | .members typeName space =>
    ∃ body, Takes (readClassBody src typeName space place.items) body rest
  | .parts space braced =>
    ∃ value, Passes (readNamespaceBody src space braced place.items) value rest
  | .hidden inner => Skip.group .openBrace .closeBrace inner place.items = rest

/-- No brace is open at this place. -/
def Place.Outside (place : Place) : Prop := ∃ space, place.stage = .parts space false

def Enclosure.IsInterface (e : Enclosure) : Prop :=
  ∃ header space, e = .type header space ∧ header.kind = .interfaceKind

/-- Behind `after` another brace is closed, and `rest` is not in front of that brace. -/
def ClosesLater (after rest : List Item) : Prop :=
  ∃ behind, Closing after behind ∧ rest <:+ behind

theorem exists_body {header : Header} {brace : Item} {decl : TypeDecl}
    (head : Takes (readHeader src ts) header (brace :: inside))
    (opens : brace.token = .mark .openBrace) (h : Takes (readType src space lead ts) decl rest) :
    ∃ body behind, ReadsBody src header.name space header.kind inside body behind ∧
      rest = dropMark .semicolon behind := by
  obtain ⟨_, _, body, again, completes, -⟩ := exists_completes h
  obtain ⟨rfl, rfl⟩ := Takes.unique head again
  cases completes with
  | semicolon semicolon => cases opens.symm.trans semicolon
  | body _ read => exact ⟨body, _, read, rfl⟩

theorem matched_or (inside : List Item) :
    Matched inside (Skip.braces inside) ∨ Skip.braces inside = [] := by
  rcases Skip.group_closes_or 0 inside with
    ⟨taken, brace, behind, same, closes, braced, left⟩ | all
  · have left : Skip.braces inside = behind := left
    exact .inl ⟨taken, brace, by rw [left, same], closes, braced⟩
  · exact .inr all

/-- The body of a type is closed, or it is that of an interface and reaches to the
end of the text. -/
theorem closes_or_of_readsBody {header : Header} {body : Body}
    (h : ReadsBody src header.name space header.kind inside body rest) :
    Closes src (.type header space) inside rest ∨ header.kind = .interfaceKind ∧ rest = [] := by
  generalize kind : header.kind = k at h
  cases h with
  | classBody read => exact .inl (.classBody kind (closing_of_readClassBody read) read)
  | enumBody read => exact .inl (.enumBody kind (closing_of_readEnumValues read) read)
  | interfaceBody passed =>
    subst passed
    rcases matched_or inside with matched | all
    · exact .inl (.interfaceBody kind matched)
    · exact .inr ⟨rfl, all⟩

theorem rest_of_passesOver {members : List Member} (passes : PassesOver src typeName ts us)
    (h : Takes (readMember src typeName lead modifiers ts) members rest) :
    rest = Skip.wholeMember us := by
  obtain ⟨_, h⟩ := h
  unfold readMember at h
  cases passes with
  | untranslated skipped =>
    rw [dif_pos skipped] at h
    cases h
    rfl
  | keyword translated type skipped =>
    obtain ⟨_, type⟩ := type
    rw [dif_neg (by simp [translated]), type] at h
    simp only [skipped, if_true] at h
    cases h
    rfl
  | @named _ _ _ _ m translated type plain named listed marked =>
    obtain ⟨_, type⟩ := type
    obtain ⟨_, named⟩ := named
    have first : Item.token? us = some (.mark m) := beq_iff_eq.mp marked
    rw [dif_neg (by simp [translated]), type] at h
    simp only [plain, Bool.false_eq_true, if_false, named] at h
    obtain ⟨l, tail, same⟩ := map_eq_ok h
    cases same
    unfold readMemberTail at tail
    simp only [List.mem_cons, List.not_mem_nil, or_false] at listed
    rcases listed with rfl | rfl | rfl | rfl <;> rw [first] at tail <;> cases tail <;> rfl

theorem exists_accessors {members : List Member} {brace : Item} {written name : String}
    {afterType : List Item} (translated : isUntranslated typeName ts = false)
    (type : Takes (readWrittenType src ts) written afterType)
    (plain : (Item.isKeyword .thisKw afterType || Item.isKeyword .operatorKw afterType) = false)
    (named : Takes (readName afterType) name (brace :: inside))
    (opens : brace.token = .mark .openBrace)
    (h : Takes (readMember src typeName lead modifiers ts) members rest) :
    ∃ readable after, Takes (readAccessors src inside) readable after ∧ rest <:+ after := by
  obtain ⟨_, h⟩ := h
  obtain ⟨_, type⟩ := type
  obtain ⟨_, named⟩ := named
  have first : Item.token? (brace :: inside) = some (.mark .openBrace) := congrArg some opens
  unfold readMember at h
  rw [dif_neg (by simp [translated]), type] at h
  simp only [plain, Bool.false_eq_true, if_false, named] at h
  obtain ⟨l, tail, same⟩ := map_eq_ok h
  cases same
  unfold readMemberTail at tail
  simp only [first] at tail
  obtain ⟨_, property, same⟩ := map_eq_ok tail
  cases same
  unfold readProperty at property
  split at property
  · cases property
  rename_i readable after shorter read
  refine ⟨readable, after, ⟨shorter, read⟩, ?_⟩
  split at property
  · obtain ⟨semicolon, _, same⟩ := map_eq_ok property
    cases same
    exact semicolon.shorter.2.trans (passDefault after).short.2
  · cases property
    exact List.suffix_rfl

theorem Opens.ne_nil (opens : Opens src ts lead modifiers start) (some : start ≠ []) :
    ts ≠ [] := by
  rintro rfl
  exact some (List.eq_nil_of_length_eq_zero (Nat.le_zero.mp opens.shorter))

theorem suffix_dropMark (m : Mark) (ts : List Item) : dropMark m ts <:+ ts :=
  (dropMark_short m ts).2

theorem closesLater_of_readClassBody {after : List Item} {body : Body}
    (h : Takes (readClassBody src typeName space ts) body rest) (behind : ts <:+ after) :
    ClosesLater after rest :=
  ⟨rest, (closing_of_readClassBody h).of_suffix behind, List.suffix_rfl⟩

theorem closesLater_of_readNamespaceBody {after : List Item} {value : List Part}
    (h : Passes (readNamespaceBody src space true ts) value rest) (behind : ts <:+ after) :
    ClosesLater after rest := by
  obtain ⟨closed, closing, rfl⟩ := closing_of_readNamespaceBody h
  exact ⟨closed, closing.of_suffix behind, suffix_dropMark _ _⟩

/-- What is behind braces in the body of a namespace: the rest of a body that is itself in braces is
closed behind them. -/
theorem outside_or_closesLater {after : List Item} {value : List Part}
    (h : Passes (readNamespaceBody src space braced ts) value rest) (behind : ts <:+ after) :
    Place.Outside ⟨.parts space braced, us⟩ ∨ ClosesLater after rest := by
  cases braced with
  | false => exact .inl ⟨space, rfl⟩
  | true => exact .inr (closesLater_of_readNamespaceBody h behind)

/-- Braces at a place from which the reader comes to an end are closed, and in front of the brace
that closes the body around the place. It is otherwise only with the body of an interface that
stands in no other braces. -/
theorem closes_or_of_leaves {place : Place} {e : Enclosure} (h : place.Leaves src rest)
    (opens : Encloses src place e inside) :
    (∃ after, Closes src e inside after ∧ (place.Outside ∨ ClosesLater after rest)) ∨
      e.IsInterface ∧ place.Outside := by
  cases opens with
  | space keyword named brace =>
    obtain ⟨_, read⟩ := h
    obtain ⟨_, _, _, body, others, -⟩ := exists_inner keyword named brace read
    obtain ⟨after, closing, rfl⟩ := closing_of_readNamespaceBody body
    exact .inl ⟨after, .space closing body, outside_or_closesLater others (suffix_dropMark _ _)⟩
  | @declared space braced ts start _ lead modifiers header brace starts opens other head opening =>
    obtain ⟨_, read⟩ := h
    have some : start ≠ [] :=
      List.ne_nil_of_length_pos (Nat.zero_lt_of_lt (length_of_readHeader head))
    obtain ⟨_, _, _, type, others, -⟩ := exists_type starts opens other (opens.ne_nil some) read
    obtain ⟨_, behind, body, rfl⟩ := exists_body head opening type
    rcases closes_or_of_readsBody body with closes | ⟨kind, rfl⟩
    · exact .inl ⟨_, closes, outside_or_closesLater others (suffix_dropMark _ _)⟩
    · -- nothing is left, so no brace was needed behind the interface
      rcases outside_or_closesLater others List.suffix_rfl with outside | ⟨_, closing, -⟩
      · exact .inr ⟨⟨header, space, rfl, kind⟩, outside⟩
      · exact (closing.ne_nil rfl).elim
  | nested opens nests head opening =>
    obtain ⟨_, read⟩ := h
    obtain ⟨_, _, _, type, others, -⟩ := exists_nested opens nests read
    obtain ⟨_, behind, body, rfl⟩ := exists_body head opening type
    rcases closes_or_of_readsBody body with closes | ⟨-, rfl⟩
    · exact .inl ⟨_, closes, .inr (closesLater_of_readClassBody others (suffix_dropMark _ _))⟩
    · exact ((closing_of_readClassBody others).ne_nil rfl).elim
  | accessors opens plain translated type other named opening =>
    obtain ⟨_, read⟩ := h
    obtain ⟨_, _, _, member, others, -⟩ := exists_member opens plain read
    obtain ⟨readable, after, list, behind⟩ :=
      exists_accessors translated type other named opening member
    exact .inl ⟨after, .accessors (closing_of_readAccessors list) list,
      .inr (closesLater_of_readClassBody others behind)⟩
  | @block typeName space ts start front inside lead modifiers brace opens plain passes
      passed opening =>
    obtain ⟨_, read⟩ := h
    obtain ⟨_, more, _, member, others, -⟩ := exists_member opens plain read
    have left : more = dropMark .semicolon (Skip.braces inside) := by
      rw [rest_of_passesOver passes member, Skip.wholeMember, passed, Skip.member, opening]
      rfl
    subst left
    rcases matched_or inside with matched | all
    · exact .inl ⟨_, .block matched,
        .inr (closesLater_of_readClassBody others (suffix_dropMark _ _))⟩
    · rw [all] at others
      exact ((closing_of_readClassBody others).ne_nil rfl).elim

theorem leaves_of_readsBody {header : Header} {stage : Stage} {body : Body}
    (entered : header.stage? space = some stage)
    (h : ReadsBody src header.name space header.kind inside body rest) :
    Place.Leaves src ⟨stage, inside⟩ rest := by
  unfold Header.stage? at entered
  split at entered <;> rename_i kind <;> rw [kind] at h <;> cases entered
  · cases h with
    | classBody read => exact ⟨body, read⟩
  · cases h with
    | interfaceBody passed => exact passed

/-- If the reader comes to an end from a place, then it does so from the next one, and no later. -/
theorem leaves_of_goes {a b : Place} (goes : Goes src a b) (h : a.Leaves src rest) :
    ∃ more, b.Leaves src more ∧ rest <:+ more := by
  cases goes with
  | member first =>
    obtain ⟨_, read⟩ := h
    rw [takes_iff, first.outcome_eq] at read
    obtain ⟨⟨inner, more⟩, others, same⟩ := map_eq_ok read
    cases same
    exact ⟨more, ⟨inner, takes_iff.mpr others⟩, List.suffix_rfl⟩
  | nested opens nests enters =>
    obtain ⟨_, read⟩ := h
    cases enters with | mk head opening entered =>
    obtain ⟨_, _, _, type, ⟨short, _⟩, -⟩ := exists_nested opens nests read
    obtain ⟨_, behind, body, rfl⟩ := exists_body head opening type
    exact ⟨behind, leaves_of_readsBody entered body,
      short.2.trans (suffix_dropMark _ _)⟩
  | part adds =>
    obtain ⟨_, read⟩ := h
    obtain ⟨more, others, -⟩ := adds.passes_iff.mp read
    exact ⟨rest, ⟨more, others⟩, List.suffix_rfl⟩
  | onward keyword named ends =>
    obtain ⟨value, read⟩ := h
    exact ⟨rest, ⟨value, (passes_scoped_iff keyword named ends).mp read⟩, List.suffix_rfl⟩
  | inner keyword named opening =>
    obtain ⟨_, read⟩ := h
    obtain ⟨inner, behind, _, body, ⟨short, _⟩, -⟩ :=
      exists_inner keyword named opening read
    exact ⟨behind, ⟨inner, body⟩, short.2⟩
  | declared starts opens other enters =>
    obtain ⟨_, read⟩ := h
    cases enters with | mk head opening entered =>
    have some := List.ne_nil_of_length_pos (Nat.zero_lt_of_lt (length_of_readHeader head))
    obtain ⟨_, _, _, type, ⟨short, _⟩, -⟩ :=
      exists_type starts opens other (opens.ne_nil some) read
    obtain ⟨_, behind, body, rfl⟩ := exists_body head opening type
    exact ⟨behind, leaves_of_readsBody entered body, short.2.trans (suffix_dropMark _ _)⟩
  | hidden passes => exact ⟨rest, (passes _).symm.trans h, List.suffix_rfl⟩

theorem leaves_of_reaches {a b : Place} (reached : Reaches src a b) (h : a.Leaves src rest) :
    ∃ more, b.Leaves src more ∧ rest <:+ more := by
  induction reached with
  | refl => exact ⟨rest, h, List.suffix_rfl⟩
  | tail _ goes ih =>
    obtain ⟨mid, leaves, left⟩ := ih
    obtain ⟨more, leaves, left'⟩ := leaves_of_goes goes leaves
    exact ⟨more, leaves, left.trans left'⟩

/-- A step to a place outside all braces starts at one, and the reader comes to the
same end from both. -/
theorem outside_of_goes {a b : Place} (goes : Goes src a b) (outside : b.Outside) :
    a.Outside ∧ ∀ rest, b.Leaves src rest → a.Leaves src rest := by
  obtain ⟨space, outside⟩ := outside
  cases goes with
  | member | hidden | inner => cases outside
  | nested _ _ enters | declared _ _ _ enters =>
    cases enters with | mk _ _ entered =>
    subst outside
    unfold Header.stage? at entered
    split at entered <;> cases entered
  | part adds =>
    cases outside
    exact ⟨⟨_, rfl⟩, fun _ ⟨_, read⟩ => ⟨_, adds.passes_iff.mpr ⟨_, read, rfl⟩⟩⟩
  | onward keyword named ends =>
    cases outside
    exact ⟨⟨_, rfl⟩, fun _ ⟨_, read⟩ =>
      ⟨_, (passes_scoped_iff keyword named ends).mpr read⟩⟩

theorem outside_of_reaches {a b : Place} (reached : Reaches src a b) (outside : b.Outside) :
    a.Outside ∧ ∀ rest, b.Leaves src rest → a.Leaves src rest := by
  induction reached using Relation.ReflTransGen.head_induction_on with
  | refl => exact ⟨outside, fun _ => id⟩
  | head goes _ ih =>
    obtain ⟨before, back⟩ := outside_of_goes goes ih.1
    exact ⟨before, fun rest leaves => back rest (ih.2 rest leaves)⟩

/-- The body of an interface that reaches to the end of the text is passed over, and
with it the text. -/
theorem leaves_of_unclosed {header : Header} {space' : String}
    (opens : Encloses src ⟨.parts space false, ts⟩ (.type header space') inside)
    (kind : header.kind = .interfaceKind) (all : Skip.braces inside = []) :
    Place.Leaves src ⟨.parts space false, ts⟩ [] := by
  cases opens with
  | declared starts opens other head opening =>
    have body : ReadsBody src header.name space header.kind inside .empty [] :=
      kind ▸ .interfaceBody all
    obtain ⟨_, front, modified⟩ := opens.front
    have top := takes_readTopLevel_declares front modified
      (.type other ((Completes.body opening body).takes_readType head))
    exact ⟨_, (Adds.declared starts top).passes_iff.mpr
      ⟨[], passes_readNamespaceBody_nil, rfl⟩⟩

/-- A text is accepted if the reader comes to an end from its start. -/
theorem accepts_iff {path : Path} {text : String} : (∃ file, File.parse path text = .ok file) ↔
    ∃ rest, Place.Leaves text.toList ⟨.parts "" false, Item.ofText text⟩ rest := by
  unfold File.parse
  constructor
  · rintro ⟨_, read⟩
    split at read
    · cases read
    · rename_i parts whole
      exact ⟨parts.rest, parts.value, parts.short, whole⟩
  · rintro ⟨rest, value, short, whole⟩
    exact ⟨_, by rw [whole]⟩

/-- The body of a plain interface is gone into at its name. -/
theorem encloses_interface {name : String} {keyword named brace : Item} (inside : List Item)
    (declares : keyword.token = .keyword .interfaceKw) (spelled : named.token = .ident name)
    (opens : brace.token = .mark .openBrace) :
    Encloses src ⟨.parts space braced, keyword :: named :: brace :: inside⟩
      (.type ⟨.interfaceKind, name, [], []⟩ space) inside := by
  obtain ⟨starts, ⟨_, _, front⟩, other, header⟩ :=
    opens_plain .interfaceKind inside declares spelled opens
  exact .declared starts front other header opens

/-- Every body that the reader goes into is closed by a brace of its own in front of the end of the
text, or the text is refused. There is one exception: the body of an interface that stands in no
other braces is passed over, and where the text ends inside, it is accepted. What stands inside
another body is closed in front of the brace that closes that body. -/
theorem parse_encloses (path : Path) {text : String} {place : Place} {e : Enclosure}
    {inside : List Item}
    (reached : Reaches text.toList ⟨.parts "" false, Item.ofText text⟩ place)
    (opens : Encloses text.toList place e inside) :
    ((∃ after, Closes text.toList e inside after) ∨
      ((∃ file, File.parse path text = .ok file) ↔ e.IsInterface ∧ place.Outside)) ∧
    ∀ around rest, Reaches text.toList around place → ¬ around.Outside →
    around.Leaves text.toList rest →
      ∃ after, Closes text.toList e inside after ∧ ClosesLater after rest := by
  refine ⟨?closed, ?nests⟩
  case closed =>
    by_cases closes : ∃ after, Closes text.toList e inside after
    · exact .inl closes
    refine .inr (accepts_iff.trans ⟨?only, ?accepted⟩)
    case only =>
      rintro ⟨rest, leaves⟩
      obtain ⟨_, leaves, -⟩ := leaves_of_reaches reached leaves
      rcases closes_or_of_leaves leaves opens with ⟨after, closed, -⟩ | exception
      · exact (closes ⟨after, closed⟩).elim
      · exact exception
    case accepted =>
      rintro ⟨interface, outside⟩
      have all : Skip.braces inside = [] := by
        refine (matched_or inside).resolve_left fun matched => closes ?_
        obtain ⟨_, _, rfl, kind⟩ := interface
        exact ⟨_, .interfaceBody kind matched⟩
      refine ⟨[], (outside_of_reaches reached outside).2 [] ?_⟩
      obtain ⟨_, _, rfl, kind⟩ := interface
      obtain ⟨_, ts⟩ := place
      obtain ⟨_, rfl⟩ := outside
      exact leaves_of_unclosed opens kind all
  case nests =>
    intro around rest within braces leaves
    obtain ⟨more, leaves, left⟩ := leaves_of_reaches within leaves
    have inner : ¬ place.Outside := fun outside => braces (outside_of_reaches within outside).1
    rcases closes_or_of_leaves leaves opens with ⟨after, closed, later⟩ | ⟨-, outside⟩
    · obtain ⟨behind, closing, left'⟩ := later.resolve_left inner
      exact ⟨after, closed, behind, closing, left.trans left'⟩
    · exact (inner outside).elim

/-- An interface is accepted that is not closed at all. -/
theorem parse_encloses_of_interface : ∃ e inside,
    Encloses "interface I \x7b".toList
      ⟨.parts "" false, Item.ofText "interface I \x7b"⟩ e inside ∧
      (¬ ∃ after, Closes "interface I \x7b".toList e inside after) ∧
      ∃ file, File.parse ⟨"I.cs"⟩ "interface I \x7b" = .ok file := by
  have whole : Item.ofText "interface I \x7b" =
      [⟨.keyword .interfaceKw, [], 0, 9⟩, ⟨.ident "I", [], 10, 11⟩,
        ⟨.mark .openBrace, [], 12, 13⟩] := by
    with_unfolding_all rfl
  generalize "interface I \x7b" = text at whole ⊢
  have opens : Encloses text.toList ⟨.parts "" false, Item.ofText text⟩
      (.type ⟨.interfaceKind, "I", [], []⟩ "") [] := by
    rw [whole]
    exact encloses_interface [] rfl rfl rfl
  have unclosed : ¬ ∃ after,
      Closes text.toList (.type ⟨.interfaceKind, "I", [], []⟩ "") [] after := by
    rintro ⟨_, closes⟩
    cases closes with
    | classBody kind | enumBody kind => cases kind
    | interfaceBody _ matched =>
      obtain ⟨_, _, same, -⟩ := matched
      exact List.append_ne_nil_of_right_ne_nil _ (List.cons_ne_nil _ _) same.symm
  have accepted := (parse_encloses ⟨"I.cs"⟩ .refl opens).1.resolve_left unclosed
  exact ⟨_, _, opens, unclosed, accepted.mpr ⟨⟨_, _, rfl, rfl⟩, _, rfl⟩⟩

/-- What is behind an interface that is not closed is lost. -/
example : File.parse ⟨"I.cs"⟩ "interface I \x7b public class P \x7b public int A; \x7d" =
    .ok ⟨⟨"I.cs"⟩, [], [⟨"I", "", .interfaceKind, [], none, [], [], []⟩], []⟩ := by
  with_unfolding_all rfl

end Ambient.Host
