import Ambient.Proofs.Source.Initializers

/-!
# Where expression bodies end

A member that declares nothing more is passed over up to a semicolon, or up to the end of the first
block that stands outside parentheses and square brackets, whichever is first. An expression body
ends with a semicolon, so it is passed over whole unless something follows a block in it.
`new X { B = 1 }` is passed over, and of `new X { B = 1 }.B` the end is left and read as a member.
-/
namespace Ambient

namespace Token

/-- Tokens whose groups are balanced, with no semicolon outside their groups. Only with `blocks` may
they have groups of braces that stand in no other group. -/
inductive Bodied (blocks : Bool) : List Token → Prop
  | nil : Bodied blocks []
  | flat {t : Token} {ts : List Token} : t.IsFlat → t ≠ .mark .semicolon →
    Bodied blocks ts → Bodied blocks (t :: ts)
  | group {opening closing : Mark} {ts us : List Token} : opening.Pair closing →
    (blocks = true ∨ opening ≠ .openBrace) → Balanced true ts → Bodied blocks us →
    Bodied blocks (.mark opening :: (ts ++ .mark closing :: us))

/-- A block stands nowhere but at the end, if not in another group. -/
def EndsWhole (ts : List Token) : Prop :=
  Bodied false ts ∨ ∃ front inside, Bodied false front ∧ Balanced true inside ∧
    ts = front ++ .mark .openBrace :: (inside ++ [.mark .closeBrace])

/-- Without a block, or up to the first one and on behind it. -/
theorem Bodied.split {ts : List Token} (bodied : Bodied true ts) : Bodied false ts ∨
    ∃ front inside back, Bodied false front ∧ Balanced true inside ∧ Bodied true back ∧
      ts = front ++ .mark .openBrace :: (inside ++ .mark .closeBrace :: back) := by
  induction bodied with
  | nil => exact .inl .nil
  | @flat t ts flat plain _ ih =>
    rcases ih with blockless | ⟨front, inside, back, first, balanced, more, rfl⟩
    · exact .inl (.flat flat plain blockless)
    · exact .inr ⟨t :: front, inside, back, .flat flat plain first, balanced, more, rfl⟩
  | @group opening closing ts us pair _ balanced bodied ih =>
    by_cases block : opening = .openBrace
    · subst block
      cases pair
      exact .inr ⟨[], ts, us, .nil, balanced, bodied, rfl⟩
    rcases ih with blockless | ⟨front, inside, back, first, within, more, rfl⟩
    · exact .inl (.group pair (.inr block) balanced blockless)
    · refine .inr ⟨.mark opening :: (ts ++ .mark closing :: front), inside, back,
        .group pair (.inr block) balanced first, within, more, ?_⟩
      simp

theorem Bodied.append {blocks : Bool} {ts us : List Token} (first : Bodied blocks ts)
    (more : Bodied blocks us) : Bodied blocks (ts ++ us) := by
  induction first with
  | nil => exact more
  | flat flat plain _ ih => exact .flat flat plain ih
  | group pair allowed balanced _ ih =>
    rw [List.cons_append, List.append_assoc, List.cons_append]
    exact .group pair allowed balanced ih

theorem Bodied.head?_ne {blocks : Bool} {ts : List Token} (bodied : Bodied blocks ts) :
    ts.head? ≠ some (.mark .semicolon) := by
  cases bodied with
  | nil => nofun
  | flat _ plain _ => exact fun same => plain (Option.some.inj same)
  | group pair _ _ _ => cases pair <;> simp

/-- What stands before may have groups but no blocks. -/
theorem EndsWhole.behind {ts us : List Token} (first : Bodied false ts) (whole : EndsWhole us) :
    EndsWhole (ts ++ us) := by
  rcases whole with blockless | ⟨front, inside, more, balanced, rfl⟩
  · exact .inl (first.append blockless)
  · exact .inr ⟨ts ++ front, inside, first.append more, balanced, (List.append_assoc ..).symm⟩

theorem Bodied.of_flat {blocks : Bool} {t : Token} {ts : List Token} (flat : t.IsFlat)
    (bodied : Bodied blocks (t :: ts)) : Bodied blocks ts := by
  cases bodied with
  | flat _ _ more => exact more
  | group pair => exact absurd rfl (flat _ _ pair).1

theorem EndsWhole.of_flat {t : Token} {ts : List Token} (flat : t.IsFlat)
    (whole : EndsWhole (t :: ts)) : EndsWhole ts := by
  rcases whole with blockless | ⟨front, inside, first, balanced, same⟩
  · exact .inl (blockless.of_flat flat)
  · rcases List.cons_eq_append_iff.mp same with ⟨rfl, block⟩ | ⟨front, rfl, rfl⟩
    · cases block
      exact absurd rfl (flat _ _ .braces).1
    · exact .inr ⟨front, inside, first.of_flat flat, balanced, rfl⟩

/-- Tokens whose braces are balanced, whatever other brackets stand among them. -/
inductive Braced : List Token → Prop
  | nil : Braced []
  | other {t : Token} {ts : List Token} : t ≠ .mark .openBrace →
    t ≠ .mark .closeBrace → Braced ts → Braced (t :: ts)
  | block {inside ts : List Token} : Braced inside → Braced ts →
    Braced (.mark .openBrace :: (inside ++ .mark .closeBrace :: ts))

theorem Braced.append {ts us : List Token} (first : Braced ts) (more : Braced us) :
    Braced (ts ++ us) := by
  induction first with
  | nil => exact more
  | other opens closes _ ih => exact .other opens closes ih
  | block inside _ _ ih =>
    rw [List.cons_append, List.append_assoc, List.cons_append]
    exact .block inside ih

theorem Braced.group {opening closing : Mark} {ts us : List Token} (pair : opening.Pair closing)
    (inside : Braced ts) (more : Braced us) :
    Braced (.mark opening :: (ts ++ .mark closing :: us)) := by
  cases pair with
  | braces => exact .block inside more
  | parens | brackets =>
    exact .other (by decide) (by decide) (inside.append (.other (by decide) (by decide) more))

theorem Balanced.braced {within : Bool} {ts : List Token} (balanced : Balanced within ts) :
    Braced ts := by
  induction balanced with
  | nil => exact .nil
  | flat flat _ _ ih => exact .other (flat _ _ .braces).1 (flat _ _ .braces).2 ih
  | group pair _ _ ihInside ihAfter => exact .group pair ihInside ihAfter

theorem Bodied.braced {blocks : Bool} {ts : List Token} (bodied : Bodied blocks ts) :
    Braced ts := by
  induction bodied with
  | nil => exact .nil
  | flat flat _ _ ih => exact .other (flat _ _ .braces).1 (flat _ _ .braces).2 ih
  | group pair _ balanced _ ih => exact .group pair balanced.braced ih

theorem Bodied.arrow : Bodied false [.mark .arrow] :=
  .flat (by decide) (by decide) .nil

end Token

namespace Skip
open Token
variable {opening closing : Mark} {read front inside rest : List Item} {depth : Nat}

theorem member_flat {i : Item} (flat : i.token.IsFlat)
    (plain : depth ≠ 0 ∨ i.token ≠ .mark .semicolon) :
    member depth (i :: rest) = member depth rest := by
  have parens := flat _ _ .parens
  have brackets := flat _ _ .brackets
  have braces := flat _ _ .braces
  rw [member]
  split <;> simp_all

/-- A group is passed over inside some brackets, at a depth of its own. -/
theorem member_group (pair : opening.Pair closing)
    (passed : depth ≠ 0 ∨ opening ≠ .openBrace) :
    ∃ inner, inner ≠ 0 ∧ ∀ (i : Item) (ts : List Item),
      (i.token = .mark opening → member depth (i :: ts) = member inner ts) ∧
      (i.token = .mark closing → member inner (i :: ts) = member depth ts) := by
  cases pair with
  | parens | brackets =>
    refine ⟨depth + 1, Nat.succ_ne_zero depth, fun i ts => ⟨?_, ?_⟩⟩ <;>
      · intro token
        simp only [member, token, Nat.add_sub_cancel]
  | braces =>
    have deep : depth ≠ 0 := passed.resolve_right fun other => other rfl
    refine ⟨depth, deep, fun i ts => ⟨?_, ?_⟩⟩ <;>
      · intro token
        rw [member, token]
        exact if_neg deep

/-- Inside brackets nothing ends a member but what closes them. -/
theorem member_balanced {within : Bool} {ts : List Token} (balanced : Balanced within ts) :
    ∀ (read rest : List Item) (depth : Nat), read.map (·.token) = ts → depth ≠ 0 →
      member depth (read ++ rest) = member depth rest := by
  induction balanced with
  | nil =>
    intro read rest depth tokens _
    rw [List.map_eq_nil_iff.mp tokens]
    rfl
  | flat flat _ _ ih =>
    intro read rest depth tokens deep
    obtain ⟨i, more, rfl, rfl, later⟩ := List.map_eq_cons_iff.mp tokens
    rw [List.cons_append, member_flat flat (.inl deep)]
    exact ih more rest depth later deep
  | group pair _ _ ihInside ihAfter =>
    intro read rest depth tokens deep
    obtain ⟨i, more, rfl, first, later⟩ := List.map_eq_cons_iff.mp tokens
    obtain ⟨inner, behind, rfl, inside, closed⟩ := List.map_eq_append_iff.mp later
    obtain ⟨j, after, rfl, last, outside⟩ := List.map_eq_cons_iff.mp closed
    obtain ⟨deeper, positive, passes⟩ := member_group pair (.inl deep)
    rw [List.cons_append, (passes i _).1 first, List.append_assoc,
      ihInside inner _ deeper inside positive, List.cons_append, (passes j _).2 last]
    exact ihAfter after rest depth outside deep

/-- Without blocks nothing ends a member before its semicolon. -/
theorem member_bodied {ts : List Token} (bodied : Bodied false ts) :
    ∀ (read rest : List Item), read.map (·.token) = ts →
      member 0 (read ++ rest) = member 0 rest := by
  induction bodied with
  | nil =>
    intro read rest tokens
    rw [List.map_eq_nil_iff.mp tokens]
    rfl
  | flat flat plain _ ih =>
    intro read rest tokens
    obtain ⟨i, more, rfl, rfl, later⟩ := List.map_eq_cons_iff.mp tokens
    rw [List.cons_append, member_flat flat (.inr plain)]
    exact ih more rest later
  | group pair allowed balanced _ ih =>
    intro read rest tokens
    obtain ⟨i, more, rfl, first, later⟩ := List.map_eq_cons_iff.mp tokens
    obtain ⟨inner, behind, rfl, inside, closed⟩ := List.map_eq_append_iff.mp later
    obtain ⟨j, after, rfl, last, outside⟩ := List.map_eq_cons_iff.mp closed
    obtain ⟨deeper, positive, passes⟩ :=
      @member_group _ _ 0 pair (.inr (allowed.resolve_left Bool.false_ne_true))
    rw [List.cons_append, (passes i _).1 first, List.append_assoc,
      member_balanced balanced inner _ deeper inside positive, List.cons_append,
      (passes j _).2 last]
    exact ih after rest outside

theorem group_other {i : Item} {inner : Nat} (opens : i.token ≠ .mark opening)
    (closes : i.token ≠ .mark closing) :
    group opening closing inner (i :: rest) = group opening closing inner rest := by
  rw [group.eq_def]
  simp only [opens, closes, if_false]

theorem group_opens {i : Item} {inner : Nat} (opens : i.token = .mark opening) :
    group opening closing inner (i :: rest) = group opening closing (inner + 1) rest := by
  rw [group.eq_def]
  exact if_pos opens

theorem group_closes {i : Item} {inner : Nat} (closes : i.token = .mark .closeBrace) :
    group .openBrace .closeBrace (inner + 1) (i :: rest) =
      group .openBrace .closeBrace inner rest := by
  rw [group.eq_def]
  simp [closes]

/-- A block is passed over whatever brackets of other kinds stand in it. -/
theorem group_braced {ts : List Token} (braced : Braced ts) :
    ∀ (read rest : List Item) (inner : Nat), read.map (·.token) = ts →
      group .openBrace .closeBrace inner (read ++ rest) =
        group .openBrace .closeBrace inner rest := by
  induction braced with
  | nil =>
    intro read rest inner tokens
    rw [List.map_eq_nil_iff.mp tokens]
    rfl
  | other opens closes _ ih =>
    intro read rest inner tokens
    obtain ⟨i, more, rfl, rfl, later⟩ := List.map_eq_cons_iff.mp tokens
    rw [List.cons_append, group_other opens closes]
    exact ih more rest inner later
  | block _ _ ihInside ihAfter =>
    intro read rest inner tokens
    obtain ⟨i, more, rfl, first, later⟩ := List.map_eq_cons_iff.mp tokens
    obtain ⟨content, behind, rfl, inside, closed⟩ := List.map_eq_append_iff.mp later
    obtain ⟨j, after, rfl, last, outside⟩ := List.map_eq_cons_iff.mp closed
    rw [List.cons_append, List.append_assoc, List.cons_append, group_opens first,
      ihInside content _ _ inside, group_closes last]
    exact ihAfter after rest inner outside

/-- A member ends with its first block, and a semicolon right behind that goes with it. -/
theorem wholeMember_block {opens closes : Item} (blockless : Bodied false (front.map (·.token)))
    (opening : opens.token = .mark .openBrace) (braced : Braced (inside.map (·.token)))
    (closing : closes.token = .mark .closeBrace) :
    wholeMember (front ++ opens :: (inside ++ closes :: rest)) = dropMark .semicolon rest := by
  have block : braces (inside ++ closes :: rest) = rest := by
    rw [braces, wholeGroup, group_braced braced inside _ 0 rfl, group, closing,
      if_neg (by decide), if_pos rfl]
  rw [wholeMember, member_bodied blockless front _ rfl, member, opening]
  simp only [if_true, block]

theorem wholeMember_semicolon {semicolon : Item} (blockless : Bodied false (read.map (·.token)))
    (ends : semicolon.token = .mark .semicolon) :
    wholeMember (read ++ semicolon :: rest) = rest := by
  rw [wholeMember, member_bodied blockless read _ rfl, member, ends]
  rfl

/-- Items with a block among their tokens. -/
theorem exists_of_map_block {ts : List Item} {us vs ws : List Token}
    (same : ts.map (·.token) = us ++ .mark .openBrace :: (vs ++ .mark .closeBrace :: ws)) :
    ∃ front opens inside closes back, ts = front ++ opens :: (inside ++ closes :: back) ∧
      front.map (·.token) = us ∧ opens.token = .mark .openBrace ∧
      inside.map (·.token) = vs ∧
      closes.token = .mark .closeBrace ∧ back.map (·.token) = ws := by
  obtain ⟨front, later, rfl, first, block⟩ := List.map_eq_append_iff.mp same
  obtain ⟨opens, within, rfl, opening, content⟩ := List.map_eq_cons_iff.mp block
  obtain ⟨inside, behind, rfl, balanced, closed⟩ := List.map_eq_append_iff.mp content
  obtain ⟨closes, back, rfl, closing, more⟩ := List.map_eq_cons_iff.mp closed
  exact ⟨front, opens, inside, closes, back, rfl, first, opening, balanced, closing, more⟩

/-- A member with a block and more behind it ends before that. -/
theorem wholeMember_ne {semicolon : Item} (bodied : Bodied true (read.map (·.token)))
    (broken : ¬ EndsWhole (read.map (·.token))) :
    wholeMember (read ++ semicolon :: rest) ≠ rest := by
  rcases bodied.split with blockless | ⟨front, inside, back, first, balanced, more, same⟩
  · exact absurd (.inl blockless) broken
  obtain ⟨before, opens, content, closes, behind, rfl, rfl, opening, rfl, closing, rfl⟩ :=
    exists_of_map_block same
  rw [List.append_assoc, List.cons_append, List.append_assoc, List.cons_append,
    wholeMember_block first opening balanced.braced closing]
  cases behind with
  | nil => exact absurd (.inr ⟨_, _, first, balanced, same⟩) broken
  | cons i ts =>
    have plain : Item.isMark .semicolon (i :: ts ++ semicolon :: rest) = false := by
      simpa [Item.isMark, Item.token?] using more.head?_ne
    intro ends
    have size := congrArg List.length ends
    rw [dropMark, plain] at size
    simp at size
    omega

theorem wholeMember_of_endsWhole {semicolon : Item} (whole : EndsWhole (read.map (·.token)))
    (ends : semicolon.token = .mark .semicolon) :
    wholeMember (read ++ semicolon :: rest) = rest := by
  rcases whole with blockless | ⟨front, inside, first, balanced, same⟩
  · exact wholeMember_semicolon blockless ends
  obtain ⟨before, opens, content, closes, behind, rfl, rfl, opening, rfl, closing, nothing⟩ :=
    exists_of_map_block same
  rw [List.map_eq_nil_iff.mp nothing, List.append_assoc, List.cons_append, List.append_assoc,
    List.singleton_append, wholeMember_block first opening balanced.braced closing]
  exact if_pos (by simp [Item.isMark, Item.token?, ends])

/-- A semicolon ends the member before it exactly if that has no block, or one at its end. -/
theorem wholeMember_iff {semicolon : Item} (bodied : Bodied true (read.map (·.token)))
    (ends : semicolon.token = .mark .semicolon) :
    wholeMember (read ++ semicolon :: rest) = rest ↔ EndsWhole (read.map (·.token)) := by
  constructor
  · intro same
    exact Classical.byContradiction fun broken => wholeMember_ne bodied broken same
  · exact fun whole => wholeMember_of_endsWhole whole ends

end Skip

namespace Host
open Token
variable {src : List Char} {typeName space written name : String} {ts rest after start : List Item}
  {names : List String} {lead : Lead} {modifiers : Modifiers}

/-- An expression body with the arrow before it and the semicolon behind it. -/
def IsBody (body : List Token) (ts : List Item) : Prop :=
  ∃ arrow read semicolon, ts = arrow :: (read ++ [semicolon]) ∧ arrow.token = .mark .arrow ∧
    read.map (·.token) = body ∧ semicolon.token = .mark .semicolon

theorem IsBody.token? {body : List Token} (isBody : IsBody body ts) (rest : List Item) :
    Item.token? (ts ++ rest) = some (.mark .arrow) := by
  obtain ⟨arrow, read, semicolon, rfl, arrows, -, -⟩ := isBody
  exact congrArg some arrows

theorem wholeMember_body {front : List Item} {body : List Token}
    (first : Bodied false (front.map (·.token))) (isBody : IsBody body ts)
    (whole : EndsWhole body) (rest : List Item) :
    Skip.wholeMember (front ++ ts ++ rest) = rest := by
  obtain ⟨arrow, read, semicolon, rfl, arrows, rfl, ends⟩ := isBody
  have whole : EndsWhole ((front ++ arrow :: read).map (·.token)) := by
    rw [List.map_append, List.map_cons, arrows]
    exact (whole.behind .arrow).behind first
  simpa using Skip.wholeMember_of_endsWhole whole ends

/-- What follows the name of an accessor, the expression bodies there, and what is behind the
accessor. A block takes a semicolon behind it along. -/
inductive AccessorEnd : List Item → List (List Token) → List Item → Prop
  | plain {semicolon : Item} {more : List Item} : semicolon.token = .mark .semicolon →
    AccessorEnd (semicolon :: more) [] more
  | body {items more : List Item} {body : List Token} : IsBody body items →
    AccessorEnd (items ++ more) [body] more
  | block {opens closes : Item} {inside more : List Item} : opens.token = .mark .openBrace →
    Balanced true (inside.map (·.token)) → closes.token = .mark .closeBrace →
    AccessorEnd (opens :: (inside ++ closes :: more)) [] (dropMark .semicolon more)

/-- Accessors through the closing brace with `rest` behind them: whether one of them is a getter
that can be read, and the expression bodies. Attributes and modifiers are as the readers of
these take them. -/
inductive Accessors (src : List Char) :
    List Item → Bool → List (List Token) → List Item → Prop
  | close {i : Item} {rest : List Item} : i.token = .mark .closeBrace →
    Accessors src (i :: rest) false [] rest
  | next {ts afterLists tail more rest : List Item} {i : Item} {attributes : List Attribute}
    {modifiers : Modifiers} {accessor : String} {body bodies : List (List Token)}
    {readable : Bool} : Item.isMark .closeBrace ts = false →
    Passes (readAttributeLists src ts) attributes afterLists →
    Leaves (readModifiers .absent afterLists) modifiers (i :: tail) →
    nameOf? i.token = some accessor → AccessorEnd tail body more →
    Accessors src more readable bodies rest →
    Accessors src ts ((accessor == "get" && !modifiers.isRestricted) || readable)
      (body ++ bodies) rest

theorem AccessorEnd.passesBody {tail more : List Item} {bodies : List (List Token)}
    (ends : AccessorEnd tail bodies more) (whole : ∀ body ∈ bodies, EndsWhole body) :
    PassesBody tail more := by
  cases ends with
  | plain semicolon => exact .inl ⟨congrArg some semicolon, rfl⟩
  | @body items more body isBody =>
    refine .inr ⟨.inl (isBody.token? more), ?_⟩
    simpa using @wholeMember_body _ [] _ .nil isBody
      (whole body (List.mem_singleton_self body)) more
  | @block opens closes inside more opening balanced closing =>
    exact .inr ⟨.inr (congrArg some opening),
      @Skip.wholeMember_block [] inside more opens closes .nil opening balanced.braced closing⟩

theorem takes_readAccessors {readable : Bool} {bodies : List (List Token)}
    (accessors : Accessors src ts readable bodies rest)
    (whole : ∀ body ∈ bodies, EndsWhole body) :
    Takes (readAccessors src ts) readable rest := by
  induction accessors with
  | close closes => exact takes_readAccessors_close closes
  | next inside lists modified named ends _ ih =>
    have passed := ends.passesBody fun body h => whole body (List.mem_append_left _ h)
    exact takes_readAccessors_on inside lists modified (takes_readName_of named) passed
      (ih fun body h => whole body (List.mem_append_right _ h))

/-- A member from its name on with `rest` behind it, the names it declares and its expression
bodies: a property with a body, a method with a body, or a property whose accessors have bodies.
What stands between the name and the body of a method has no blocks. -/
inductive Bodies (src : List Char) :
    List Item → List String → List (List Token) → List Item → Prop
  | property {i : Item} {items rest : List Item} {name : String} {body : List Token} :
    nameOf? i.token = some name → IsBody body items →
    Bodies src (i :: (items ++ rest)) [name] [body] rest
  | method {i first : Item} {signature items rest : List Item} {name : String} {body : List Token}
    {m : Mark} : nameOf? i.token = some name → first.token = .mark m →
    m ∈ [Mark.openParen, .openAngle, .dot] →
    Bodied false ((first :: signature).map (·.token)) → IsBody body items →
    Bodies src (i :: (first :: signature ++ items ++ rest)) [] [body] rest
  | accessors {i opens : Item} {inside rest : List Item} {name : String} {readable : Bool}
    {bodies : List (List Token)} : nameOf? i.token = some name →
      opens.token = .mark .openBrace →
    Accessors src inside readable bodies rest → Item.isMark .equals rest = false →
    Bodies src (i :: opens :: inside) (if readable then [name] else []) bodies rest

theorem takes_readProperty_accessors {readable : Bool}
    (accessors : Takes (readAccessors src ts) readable rest)
    (plain : Item.isMark .equals rest = false) : Takes (readProperty src ts) readable rest := by
  obtain ⟨_, read⟩ := accessors
  rw [takes_iff, readProperty]
  simp only [read, plain]
  rfl

theorem passes_passMember {α : Type} (value : α) (passed : Skip.wholeMember ts = rest) :
    Passes (.ok (Skip.passMember value ts)) value rest := by
  subst passed
  exact ⟨Skip.wholeMember_short ts, rfl⟩

theorem passes_readMemberTail_bodies {bodies : List (List Token)}
    (member : Bodies src ts names bodies rest) (whole : ∀ body ∈ bodies, EndsWhole body) :
    ∃ i tail name, ts = i :: tail ∧ nameOf? i.token = some name ∧
      Passes (readMemberTail src name tail) names rest := by
  cases member with
  | @property i items _ name body named isBody =>
    have passed : Skip.wholeMember (items ++ rest) = rest := by
      simpa using @wholeMember_body _ [] _ .nil isBody
        (whole body (List.mem_singleton_self body)) rest
    refine ⟨i, _, name, rfl, named, ?_⟩
    unfold readMemberTail
    simp only [isBody.token? rest]
    exact passes_passMember [name] passed
  | @method i first signature items _ name body m named begins allowed blockless isBody =>
    have passed :=
      wholeMember_body blockless isBody (whole body (List.mem_singleton_self body)) rest
    refine ⟨i, _, name, rfl, named, ?_⟩
    have found : Item.token? (first :: signature ++ items ++ rest) = some (.mark m) :=
      congrArg some begins
    unfold readMemberTail
    simp only [List.mem_cons, List.not_mem_nil, or_false] at allowed
    rcases allowed with rfl | rfl | rfl <;> simp only [found] <;>
      exact passes_passMember [] passed
  | @accessors i opens inside _ name readable bodies named opening accessors plain =>
    obtain ⟨_, property⟩ :=
      takes_readProperty_accessors (takes_readAccessors accessors whole) plain
    refine ⟨i, _, name, rfl, named, ?_⟩
    have found : Item.token? (opens :: inside) = some (.mark .openBrace) := congrArg some opening
    unfold readMemberTail
    simp only [found, List.tail_cons, property]
    exact ⟨_, rfl⟩

/-- An expression body that stands before a semicolon is passed over up to there exactly if it has
no block outside brackets, or only one at its end. A member of a class whose expression bodies are
such declares what it declares, and the body of the class is read on behind it, whatever the
expressions are. -/
theorem readClassBody_bodies (src : List Char) (typeName space : String) :
    (∀ (arrow semicolon : Item) (body rest : List Item), arrow.token = .mark .arrow →
      Bodied true (body.map (·.token)) → semicolon.token = .mark .semicolon →
        (Skip.wholeMember (arrow :: body ++ semicolon :: rest) = rest ↔
          EndsWhole (body.map (·.token)))) ∧
      ∀ (written : String) (lead : Lead) (modifiers : Modifiers) (ts member rest : List Item)
        (names : List String) (bodies : List (List Token)),
        Begins src typeName ts lead modifiers written member →
        Bodies src member names bodies rest → (∀ body ∈ bodies, EndsWhole body) →
          outcome (readClassBody src typeName space ts) =
            (outcome (readClassBody src typeName space rest)).map
              (Prod.map (Body.addMembers (exportedMembers names written lead modifiers)) id) := by
  constructor
  · intro arrow semicolon body rest arrows bodied ends
    have tokens : (arrow :: body).map (·.token) = [.mark .arrow] ++ body.map (·.token) := by
      rw [List.map_cons, arrows]
      rfl
    have whole : Bodied true ((arrow :: body).map (·.token)) := by
      rw [tokens]
      exact .flat (by decide) (by decide) bodied
    rw [Skip.wholeMember_iff whole ends, tokens]
    exact ⟨EndsWhole.of_flat (by decide), EndsWhole.behind .arrow⟩
  · intro written lead modifiers ts member rest names bodies begins declares whole
    obtain ⟨i, tail, name, rfl, named, read⟩ := passes_readMemberTail_bodies declares whole
    exact begins.readClassBody named read

/-- The body of a class with a property that is computed by a switch. -/
def switched : String := "public Q A => b switch \x7b 1 => c \x7d; public int D; \x7d"

theorem readClassBody_bodies_of_switched :
    let ts := Item.ofText switched
    let item (n : Nat) := ts.getD n ⟨.character, [], 0, 0⟩
    let body := (ts.drop 4).take 7
    let rest := ts.drop 12
    let member := item 2 :: (item 3 :: (body ++ [item 11]) ++ rest)
    let lead : Lead := ⟨[], []⟩
    let modifiers := { Modifiers.absent with isPublic := true }
    ((item 3).token = .mark .arrow ∧ Bodied true (body.map (·.token)) ∧
      (item 11).token = .mark .semicolon ∧
      (Skip.wholeMember (item 3 :: body ++ item 11 :: rest) = rest ↔
        EndsWhole (body.map (·.token)))) ∧
      Begins switched.toList "P" ts lead modifiers "Q" member ∧
      Bodies switched.toList member ["A"] [body.map (·.token)] rest ∧
      (∀ value ∈ [body.map (·.token)], EndsWhole value) ∧
      outcome (readClassBody switched.toList "P" "App" ts) =
        (outcome (readClassBody switched.toList "P" "App" rest)).map
          (Prod.map (Body.addMembers (exportedMembers ["A"] "Q" lead modifiers)) id) := by
  intro ts item body rest member lead modifiers
  have tokens : body.map (·.token) = [.ident "b", .ident "switch"] ++
      .mark .openBrace :: ([.number "1", .mark .arrow, .ident "c"] ++ [.mark .closeBrace]) := by
    with_unfolding_all rfl
  have front : Bodied false [.ident "b", .ident "switch"] :=
    .flat (by decide) (by decide) (.flat (by decide) (by decide) .nil)
  have cases : Balanced true [.number "1", .mark .arrow, .ident "c"] :=
    .flat (by decide) (.inl rfl) (.flat (by decide) (.inl rfl) (.flat (by decide) (.inl rfl) .nil))
  have bodied : Bodied true (body.map (·.token)) := by
    rw [tokens]
    exact .flat (by decide) (by decide)
      (.flat (by decide) (by decide) (.group .braces (.inl rfl) cases .nil))
  have whole : EndsWhole (body.map (·.token)) := .inr ⟨_, _, front, cases, tokens⟩
  have begins : Begins switched.toList "P" ts lead modifiers "Q" member :=
    ⟨by with_unfolding_all rfl, by with_unfolding_all rfl, ts, ts.drop 1,
      ⟨short_self _, by with_unfolding_all rfl⟩,
      ⟨.of_suffix (List.drop_suffix 1 ts), by with_unfolding_all rfl⟩,
      by with_unfolding_all rfl, by with_unfolding_all rfl,
      takes_iff.mpr (by with_unfolding_all rfl)⟩
  have arrow : (item 3).token = .mark .arrow := by with_unfolding_all rfl
  have ends : (item 11).token = .mark .semicolon := by with_unfolding_all rfl
  have declares : Bodies switched.toList member ["A"] [body.map (·.token)] rest :=
    .property (by with_unfolding_all rfl) ⟨item 3, body, item 11, rfl, arrow, rfl, ends⟩
  have all : ∀ value ∈ [body.map (·.token)], EndsWhole value := fun _ same =>
    List.mem_singleton.mp same ▸ whole
  have shown := readClassBody_bodies switched.toList "P" "App"
  exact ⟨⟨arrow, bodied, ends, shown.1 (item 3) (item 11) body rest arrow bodied ends⟩,
    begins, declares, all, shown.2 _ _ _ _ _ _ _ _ begins declares all⟩

/-- An object with its initial values ends the member before the semicolon if something follows it.
What follows is read as the next member. -/
example : File.parse ⟨"/p/P.cs"⟩
    "class P \x7b public int A => new X \x7b B = 1 \x7d.B; public int C; \x7d" =
      .error ⟨.expectedName (some (.mark .dot)), some 41⟩ := by
  with_unfolding_all rfl

end Host

end Ambient
