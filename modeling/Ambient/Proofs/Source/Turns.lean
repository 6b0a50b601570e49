import Ambient.Host.FileReader
import Ambient.Proofs.Source.Steps

/-!
# Loops that advance

A source is read by loops: the bodies of namespaces, classes and enums, the lists in them, and
what is passed over. One turn of a loop fails, or ends the loop, or goes on behind the items that
it took, and it takes one at least. So a loop has no more turns than items in front of it, and
one for the end.
-/
namespace Ambient
variable {σ α : Type}

/-- What a turn of a loop comes to: the end with a value and the items behind it, or what is next
and what this turn changes in the value that comes of that. -/
inductive Turn (σ α : Type) where
  | ends (value : α) (rest : List Item)
  | goesOn (change : α → α) (next : σ)

/-- A loop of a reader, with the items in front of it and one turn of it. -/
structure Loop (σ α : Type) where
  items : σ → List Item
  turn : σ → Read (Turn σ α)
  read : σ → Read (α × List Item)

namespace Loop
variable {l : Loop σ α} {s : σ}

/-- What `n` turns come to, or nothing if they do not end the loop. -/
def run (l : Loop σ α) : Nat → σ → Option (Read (α × List Item))
  | 0, _ => none
  | n + 1, s =>
    match l.turn s with
    | .error e => some (.error e)
    | .ok (.ends value rest) => some (.ok (value, rest))
    | .ok (.goesOn change next) => (l.run n next).map (·.map (Prod.map change id))

/-- The turn is the first one of the reader. It fails or ends with it, or leaves fewer
items to go on with. -/
inductive Takes (l : Loop σ α) (s : σ) : Read (Turn σ α) → Prop
  | fails {e : SyntaxFault} : l.read s = .error e → Takes l s (.error e)
  | ends {value : α} {rest : List Item} : l.read s = .ok (value, rest) →
    Short rest (l.items s) → Takes l s (.ok (.ends value rest))
  | goesOn {change : α → α} {next : σ} : l.read s = (l.read next).map (Prod.map change id) →
    Shorter (l.items next) (l.items s) → Takes l s (.ok (.goesOn change next))

/-- Every turn either ends the loop or takes an item. -/
def Advances (l : Loop σ α) : Prop := ∀ s, l.Takes s (l.turn s)

/-- One turn more than there are items gives what the reader gives. -/
theorem Advances.run_eq (advances : l.Advances) {n : Nat} (enough : (l.items s).length < n) :
    l.run n s = some (l.read s) := by
  induction n generalizing s with
  | zero => exact absurd enough (Nat.not_lt_zero _)
  | succ n ih =>
    rw [run]
    have first := advances s
    generalize l.turn s = turn at first ⊢
    cases first with
    | fails read => rw [read]
    | ends read => rw [read]
    | @goesOn change next read shorter =>
      have fewer : (l.items next).length < n :=
        Nat.lt_of_lt_of_le shorter.1 (Nat.le_of_lt_succ enough)
      simp only [ih fewer, read, Option.map_some]

end Loop

/-- What a reader that may take nothing gives and leaves. -/
def remainder {ts : List Item} (read : Read (Left α ts)) : Read (α × List Item) :=
  read.map fun l => (l.value, l.rest)

section
variable {ts us : List Item} {change : α → α}

theorem outcome_eq_map {x : Read (Step α ts)} {y : Read (Step α us)}
    {f : Step α us → Step α ts}
    (h : x = y.map f) (same : ∀ s, ((f s).value, (f s).rest) = (change s.value, s.rest)) :
    outcome x = (outcome y).map (Prod.map change id) := by
  subst h
  cases y with
  | error e => rfl
  | ok s => exact congrArg Except.ok (same s)

theorem remainder_eq_map {x : Read (Left α ts)} {y : Read (Left α us)}
    {f : Left α us → Left α ts}
    (h : x = y.map f) (same : ∀ l, ((f l).value, (f l).rest) = (change l.value, l.rest)) :
    remainder x = (remainder y).map (Prod.map change id) := by
  subst h
  cases y with
  | error e => rfl
  | ok l => exact congrArg Except.ok (same l)

end

namespace Skip

/-- What is left when items are passed over. -/
def leaving (rest : List Item) : Read (Unit × List Item) := .ok ((), rest)

/-- A loop that only passes over items. -/
def skipping (items : σ → List Item) (turn : σ → Read (Turn σ Unit))
    (skip : σ → List Item) :
    Loop σ Unit where
  items := items
  turn := turn
  read s := leaving (skip s)

/-- One turn through a bracketed group. -/
def groupTurn (opening closing : Mark) (inner : Nat) : List Item → Turn (Nat × List Item) Unit
  | [] => .ends () []
  | t :: r =>
    if t.token = .mark opening then .goesOn id (inner + 1, r)
    else if t.token = .mark closing then
      match inner with
      | 0 => .ends () r
      | n + 1 => .goesOn id (n, r)
    else .goesOn id (inner, r)

/-- One turn through a member that is not translated. -/
def memberTurn (depth : Nat) : List Item → Turn (Nat × List Item) Unit
  | [] => .ends () []
  | t :: r =>
    match t.token with
    | .mark .openParen | .mark .openBracket => .goesOn id (depth + 1, r)
    | .mark .closeParen | .mark .closeBracket => .goesOn id (depth - 1, r)
    | .mark .semicolon => if depth = 0 then .ends () r else .goesOn id (depth, r)
    | .mark .openBrace =>
      if depth = 0 then .ends () (dropMark .semicolon (braces r)) else .goesOn id (depth, r)
    | .mark .closeBrace => if depth = 0 then .ends () (t :: r) else .goesOn id (depth, r)
    | _ => .goesOn id (depth, r)

/-- One turn through the items at the front of which `p` holds. -/
def whileTurn (p : Item → Bool) : List Item → Turn (List Item) Unit
  | [] => .ends () []
  | t :: r => if p t then .goesOn id r else .ends () (t :: r)

/-- One turn through an expression. -/
def expressionTurn (generics : Bool) (n : Nesting) : List Item → Turn (Nesting × List Item) Unit
  | [] => .ends () []
  | t :: r =>
    match n.step? generics t.token with
    | none => .ends () (t :: r)
    | some next => .goesOn id (next, r)

def groups (opening closing : Mark) : Loop (Nat × List Item) Unit :=
  skipping Prod.snd (fun s => .ok (groupTurn opening closing s.1 s.2))
    fun s => group opening closing s.1 s.2

def members : Loop (Nat × List Item) Unit :=
  skipping Prod.snd (fun s => .ok (memberTurn s.1 s.2)) fun s => member s.1 s.2

def expressions (generics : Bool) : Loop (Nesting × List Item) Unit :=
  skipping Prod.snd (fun s => .ok (expressionTurn generics s.1 s.2))
    fun s => expression generics s.1 s.2

def whiles (p : Item → Bool) : Loop (List Item) Unit :=
  skipping id (fun ts => .ok (whileTurn p ts)) (List.dropWhile p)

theorem advances_groups (opening closing : Mark) : (groups opening closing).Advances := by
  rintro ⟨inner, ts⟩
  show Loop.Takes _ _ (.ok (groupTurn opening closing inner ts))
  cases ts with
  | nil => exact .ends rfl (short_self [])
  | cons t r =>
    have whole := congrArg leaving (group.eq_def opening closing inner (t :: r))
    dsimp only at whole
    have first := shorter_cons t r
    unfold groupTurn
    dsimp only
    split
    · rename_i opens
      rw [if_pos opens] at whole
      exact .goesOn whole first
    rename_i other
    rw [if_neg other] at whole
    split
    · rename_i closes
      rw [if_pos closes] at whole
      cases inner with
      | zero => exact .ends whole first.short
      | succ n => exact .goesOn whole first
    · rename_i flat
      rw [if_neg flat] at whole
      exact .goesOn whole first

theorem advances_members : members.Advances := by
  rintro ⟨depth, ts⟩
  show Loop.Takes _ _ (.ok (memberTurn depth ts))
  cases ts with
  | nil => exact .ends rfl (short_self [])
  | cons t r =>
    have whole := congrArg leaving (member.eq_2 depth t r)
    have first := shorter_cons t r
    rw [memberTurn]
    generalize t.token = token at whole ⊢
    split
    · exact .goesOn whole first
    · exact .goesOn whole first
    · exact .goesOn whole first
    · exact .goesOn whole first
    · split
      · rename_i outside
        rw [if_pos outside] at whole
        exact .ends whole first.short
      · rename_i inside
        rw [if_neg inside] at whole
        exact .goesOn whole first
    · dsimp only at whole
      split
      · rename_i outside
        rw [if_pos outside] at whole
        exact .ends whole (((dropMark_short .semicolon _).trans (braces_short r)).trans first.short)
      · rename_i inside
        rw [if_neg inside] at whole
        exact .goesOn whole first
    · dsimp only at whole
      split
      · rename_i outside
        rw [if_pos outside] at whole
        exact .ends whole (short_self (t :: r))
      · rename_i inside
        rw [if_neg inside] at whole
        exact .goesOn whole first
    · rename_i openParen openBracket closeParen closeBracket semicolon openBrace closeBrace
      split at whole
      · exact (openParen rfl).elim
      · exact (openBracket rfl).elim
      · exact (closeParen rfl).elim
      · exact (closeBracket rfl).elim
      · exact (semicolon rfl).elim
      · exact (openBrace rfl).elim
      · exact (closeBrace rfl).elim
      · exact .goesOn whole first

theorem advances_whiles (p : Item → Bool) : (whiles p).Advances := by
  intro ts
  show Loop.Takes _ _ (.ok (whileTurn p ts))
  cases ts with
  | nil => exact .ends rfl (short_self [])
  | cons t r =>
    rw [whileTurn]
    split
    · rename_i holds
      exact .goesOn (congrArg leaving (List.dropWhile_cons_of_pos holds)) (shorter_cons t r)
    · rename_i fails
      exact .ends (congrArg leaving (List.dropWhile_cons_of_neg fails)) (short_self (t :: r))

theorem advances_expressions (generics : Bool) : (expressions generics).Advances := by
  rintro ⟨n, ts⟩
  show Loop.Takes _ _ (.ok (expressionTurn generics n ts))
  cases ts with
  | nil => exact .ends rfl (short_self [])
  | cons t r =>
    have whole := congrArg leaving (expression.eq_2 generics n t r)
    rw [expressionTurn]
    generalize n.step? generics t.token = step at whole ⊢
    cases step with
    | none => exact .ends whole (short_self (t :: r))
    | some next => exact .goesOn whole (shorter_cons t r)

end Skip

namespace Host

/-- One turn in the body of a class: a nested type, a member, or nothing but a semicolon. -/
def classTurn (src : List Char) (typeName space : String) :
    List Item → Read (Turn (List Item) Body)
  | [] => faultAt (fun _ => .unterminatedType typeName) []
  | t :: r =>
    if t.token = .mark .closeBrace then .ok (.ends .empty r)
    else if t.token = .mark .semicolon then .ok (.goesOn id r)
    else do
      let front ← readLead src (t :: r)
      let modified := readModifiers .absent front.rest
      if startsNestedType modified.rest then
        let type ← readType src space front.value modified.rest
        return .goesOn (Body.addNested type.value) type.rest
      else
        let member ← readMember src typeName front.value modified.value modified.rest
        return .goesOn (Body.addMembers member.value) member.rest

def classBody (src : List Char) (typeName space : String) : Loop (List Item) Body where
  items := id
  turn := classTurn src typeName space
  read ts := outcome (readClassBody src typeName space ts)

theorem advances_classBody (src : List Char) (typeName space : String) :
    (classBody src typeName space).Advances := by
  intro ts
  show Loop.Takes _ _ (classTurn src typeName space ts)
  cases ts with
  | nil => exact .fails (congrArg outcome (readClassBody.eq_1 src typeName space))
  | cons t r =>
    have whole := readClassBody.eq_2 src typeName space t r
    simp only [classTurn, bind, Except.bind]
    split
    · rename_i closes
      rw [if_pos closes] at whole
      exact .ends (congrArg outcome whole) (shorter_cons t r).short
    rename_i inside
    rw [if_neg inside] at whole
    split
    · rename_i semicolon
      rw [if_pos semicolon] at whole
      exact .goesOn (outcome_eq_map whole fun _ => rfl) (shorter_cons t r)
    rename_i nonempty
    rw [if_neg nonempty] at whole
    cases front : readLead src (t :: r) with
    | error e =>
      rw [front] at whole
      exact .fails (congrArg outcome whole)
    | ok lead =>
      have passed := (readModifiers .absent lead.rest).short.trans lead.short
      rw [front] at whole
      dsimp only at whole ⊢
      split
      · rename_i nests
        rw [if_pos nests] at whole
        cases type : readType src space lead.value (readModifiers .absent lead.rest).rest with
        | error e =>
          rw [type] at whole
          exact .fails (congrArg outcome whole)
        | ok decl =>
          rw [type] at whole
          exact .goesOn (outcome_eq_map whole fun _ => rfl) (decl.shorter.trans_short passed)
      · rename_i plain
        rw [if_neg plain] at whole
        cases member : readMember src typeName lead.value (readModifiers .absent lead.rest).value
            (readModifiers .absent lead.rest).rest with
        | error e =>
          rw [member] at whole
          exact .fails (congrArg outcome whole)
        | ok members =>
          rw [member] at whole
          exact .goesOn (outcome_eq_map whole fun _ => rfl) (members.shorter.trans_short passed)

/-- One turn among the names of a field. -/
def fieldTurn (name : String) (ts : List Item) : Read (Turn (String × List Item) (List String)) :=
  match (passDefault ts).rest with
  | [] => faultAt (.expectedMark .semicolon) []
  | t :: r =>
    if t.token = .mark .comma then do
      let next ← readName r
      return .goesOn (name :: ·) (next.value, next.rest)
    else if t.token = .mark .semicolon then .ok (.ends [name] r)
    else faultAt (.expectedMark .semicolon) (t :: r)

def fieldNames : Loop (String × List Item) (List String) where
  items := Prod.snd
  turn s := fieldTurn s.1 s.2
  read s := outcome (readFieldNames s.1 s.2)

theorem advances_fieldNames : fieldNames.Advances := by
  rintro ⟨name, ts⟩
  show Loop.Takes _ _ (fieldTurn name ts)
  have whole := readFieldNames.eq_1 name ts
  simp only [fieldTurn, bind, Except.bind]
  generalize passDefault ts = value at whole ⊢
  obtain ⟨_, afterDefault, passed⟩ := value
  cases afterDefault with
  | nil => exact .fails (congrArg outcome whole)
  | cons t r =>
    have first := (shorter_cons t r).trans_short passed
    dsimp only at whole ⊢
    split
    · rename_i comma
      rw [if_pos comma] at whole
      cases named : readName r with
      | error e =>
        rw [named] at whole
        exact .fails (congrArg outcome whole)
      | ok next =>
        rw [named] at whole
        exact .goesOn (outcome_eq_map whole fun _ => rfl) (next.shorter.short.trans_shorter first)
    · rename_i more
      rw [if_neg more] at whole
      split
      · rename_i semicolon
        rw [if_pos semicolon] at whole
        exact .ends (congrArg outcome whole) first.short
      · rename_i other
        rw [if_neg other] at whole
        exact .fails (congrArg outcome whole)

/-- One turn in the body of an enum. -/
def enumTurn (src : List Char) (ts : List Item) : Read (Turn (List Item) (List Member)) := do
  let front ← readLead src ts
  match front.rest with
  | [] => faultAt .expectedName []
  | t :: r =>
    if t.token = .mark .closeBrace then return .ends [] r
    else
      let named ← readName (t :: r)
      let init := readInitializer src named.rest
      let value : Member :=
        ⟨named.value, "", init.value, Summary.ofDocs front.value.docs, front.value.attributes⟩
      match init.rest with
      | [] => faultAt (.expectedMark .closeBrace) []
      | u :: q =>
        if u.token = .mark .comma then return .goesOn (value :: ·) q
        else if u.token = .mark .closeBrace then return .ends [value] q
        else faultAt (.expectedMark .closeBrace) (u :: q)

def enumValues (src : List Char) : Loop (List Item) (List Member) where
  items := id
  turn := enumTurn src
  read ts := outcome (readEnumValues src ts)

theorem advances_enumValues (src : List Char) : (enumValues src).Advances := by
  intro ts
  show Loop.Takes _ _ (enumTurn src ts)
  have whole := readEnumValues.eq_1 src ts
  simp only [enumTurn, bind, Except.bind]
  cases front : readLead src ts with
  | error e =>
    rw [front] at whole
    exact .fails (congrArg outcome whole)
  | ok lead =>
    obtain ⟨lead, afterLead, taken⟩ := lead
    rw [front] at whole
    cases afterLead with
    | nil => exact .fails (congrArg outcome whole)
    | cons t r =>
      dsimp only at whole ⊢
      split
      · rename_i closes
        rw [if_pos closes] at whole
        exact .ends (congrArg outcome whole) ((shorter_cons t r).trans_short taken).short
      rename_i inside
      rw [if_neg inside] at whole
      cases name : readName (t :: r) with
      | error e =>
        rw [name] at whole
        exact .fails (congrArg outcome whole)
      | ok named =>
        rw [name] at whole
        dsimp only at whole ⊢
        have first := named.shorter.trans_short taken
        generalize readInitializer src named.rest = init at whole ⊢
        obtain ⟨init, afterInit, passed⟩ := init
        cases afterInit with
        | nil => exact .fails (congrArg outcome whole)
        | cons u q =>
          have onward := ((shorter_cons u q).trans_short passed).trans_short first.short
          dsimp only at whole ⊢
          split
          · rename_i comma
            rw [if_pos comma] at whole
            exact .goesOn (outcome_eq_map whole fun _ => rfl) onward
          rename_i more
          rw [if_neg more] at whole
          split
          · rename_i closes
            rw [if_pos closes] at whole
            exact .ends (congrArg outcome whole) onward.short
          · rename_i other
            rw [if_neg other] at whole
            exact .fails (congrArg outcome whole)

/-- One turn in a list of accessors. -/
def accessorTurn (src : List Char) : List Item → Read (Turn (List Item) Bool)
  | [] => faultAt (fun _ => .unterminatedAccessors) []
  | t :: r =>
    if t.token = .mark .closeBrace then .ok (.ends false r)
    else do
      let lists ← readAttributeLists src (t :: r)
      let modified := readModifiers .absent lists.rest
      let named ← readName modified.rest
      let readable := named.value == "get" && !modified.value.isRestricted
      match Item.token? named.rest with
      | some (.mark .semicolon) => return .goesOn (readable || ·) named.rest.tail
      | some (.mark .arrow) | some (.mark .openBrace) =>
        return .goesOn (readable || ·) (Skip.wholeMember named.rest)
      | found => faultAt (fun _ => .unexpectedInAccessor found named.value) named.rest

def accessors (src : List Char) : Loop (List Item) Bool where
  items := id
  turn := accessorTurn src
  read ts := outcome (readAccessors src ts)

theorem advances_accessors (src : List Char) : (accessors src).Advances := by
  intro ts
  show Loop.Takes _ _ (accessorTurn src ts)
  cases ts with
  | nil => exact .fails (congrArg outcome (readAccessors.eq_1 src))
  | cons t r =>
    have whole := readAccessors.eq_2 src t r
    simp only [accessorTurn, bind, Except.bind]
    split
    · rename_i closes
      rw [if_pos closes] at whole
      exact .ends (congrArg outcome whole) (shorter_cons t r).short
    rename_i inside
    rw [if_neg inside] at whole
    cases front : readAttributeLists src (t :: r) with
    | error e =>
      rw [front] at whole
      exact .fails (congrArg outcome whole)
    | ok lists =>
      rw [front] at whole
      dsimp only at whole ⊢
      cases name : readName (readModifiers .absent lists.rest).rest with
      | error e =>
        rw [name] at whole
        exact .fails (congrArg outcome whole)
      | ok named =>
        rw [name] at whole
        dsimp only at whole ⊢
        have first :=
          (named.shorter.trans_short (readModifiers .absent lists.rest).short).trans_short
          lists.short
        have tail := (short_tail named.rest).trans_shorter first
        have behind := (Skip.wholeMember_short named.rest).trans_shorter first
        generalize Item.token? named.rest = found at whole ⊢
        split
        · exact .goesOn (outcome_eq_map whole fun _ => rfl) tail
        · exact .goesOn (outcome_eq_map whole fun _ => rfl) behind
        · exact .goesOn (outcome_eq_map whole fun _ => rfl) behind
        · rename_i plain arrow block
          split at whole
          · exact (plain rfl).elim
          · exact (arrow rfl).elim
          · exact (block rfl).elim
          · exact .fails (congrArg outcome whole)

/-- One turn among the parameters of a record. -/
def parameterTurn (src : List Char) (ts : List Item) : Read (Turn (List Item) (List Member)) := do
  let lists ← readAttributeLists src ts
  let type ← readWrittenType src (dropParameterModifiers lists.rest)
  let named ← readName type.rest
  let parameter := plainMember named.value type.value none lists.value
  match (passDefault named.rest).rest with
  | [] => faultAt (.expectedMark .comma) []
  | t :: r =>
    if t.token = .mark .closeParen then return .ends [parameter] r
    else if t.token = .mark .comma then return .goesOn (parameter :: ·) r
    else faultAt (.expectedMark .comma) (t :: r)

def parameters (src : List Char) : Loop (List Item) (List Member) where
  items := id
  turn := parameterTurn src
  read ts := outcome (readParameters src ts)

/-- The modifiers in front of a parameter. -/
def parameterModifiers : Loop (List Item) Unit :=
  Skip.skipping id (fun ts => .ok (Skip.whileTurn (fun t => isParameterModifier t.token) ts))
    dropParameterModifiers

theorem advances_parameterModifiers : parameterModifiers.Advances := Skip.advances_whiles _

theorem advances_parameters (src : List Char) : (parameters src).Advances := by
  intro ts
  show Loop.Takes _ _ (parameterTurn src ts)
  have whole := readParameters.eq_1 src ts
  simp only [parameterTurn, bind, Except.bind]
  cases front : readAttributeLists src ts with
  | error e =>
    rw [front] at whole
    exact .fails (congrArg outcome whole)
  | ok lists =>
    rw [front] at whole
    dsimp only at whole ⊢
    have passed := (dropParameterModifiers_short lists.rest).trans lists.short
    cases written : readWrittenType src (dropParameterModifiers lists.rest) with
    | error e =>
      rw [written] at whole
      exact .fails (congrArg outcome whole)
    | ok type =>
      rw [written] at whole
      dsimp only at whole ⊢
      cases name : readName type.rest with
      | error e =>
        rw [name] at whole
        exact .fails (congrArg outcome whole)
      | ok named =>
        rw [name] at whole
        dsimp only at whole ⊢
        have first := (named.shorter.trans_short type.shorter.short).trans_short passed
        generalize passDefault named.rest = value at whole ⊢
        obtain ⟨_, afterDefault, short⟩ := value
        cases afterDefault with
        | nil => exact .fails (congrArg outcome whole)
        | cons t r =>
          have onward := ((shorter_cons t r).trans_short short).trans_short first.short
          dsimp only at whole ⊢
          split
          · rename_i closes
            rw [if_pos closes] at whole
            exact .ends (congrArg outcome whole) onward.short
          rename_i inside
          rw [if_neg inside] at whole
          split
          · rename_i comma
            rw [if_pos comma] at whole
            exact .goesOn (outcome_eq_map whole fun _ => rfl) onward
          · rename_i other
            rw [if_neg other] at whole
            exact .fails (congrArg outcome whole)

/-- One turn among the arguments of an attribute. -/
def argumentTurn (src : List Char) (ts : List Item) : Read (Turn (List Item) (List Argument)) :=
  let name := readArgumentName ts
  let value := readArgumentValue src name.rest
  match value.rest with
  | [] => faultAt (.expectedMark .comma) []
  | t :: r =>
    if t.token = .mark .closeParen then .ok (.ends [⟨name.value, value.value⟩] r)
    else if t.token = .mark .comma then .ok (.goesOn (⟨name.value, value.value⟩ :: ·) r)
    else faultAt (.expectedMark .comma) (t :: r)

def arguments (src : List Char) : Loop (List Item) (List Argument) where
  items := id
  turn := argumentTurn src
  read ts := outcome (readArguments src ts)

theorem advances_arguments (src : List Char) : (arguments src).Advances := by
  intro ts
  show Loop.Takes _ _ (argumentTurn src ts)
  have whole := readArguments.eq_1 src ts
  simp only [argumentTurn]
  generalize readArgumentName ts = name at whole ⊢
  obtain ⟨name, afterName, named⟩ := name
  dsimp only at whole ⊢
  generalize readArgumentValue src afterName = value at whole ⊢
  obtain ⟨value, afterValue, passed⟩ := value
  cases afterValue with
  | nil => exact .fails (congrArg outcome whole)
  | cons t r =>
    have onward := ((shorter_cons t r).trans_short passed).trans_short named
    dsimp only at whole ⊢
    split
    · rename_i closes
      rw [if_pos closes] at whole
      exact .ends (congrArg outcome whole) onward.short
    rename_i inside
    rw [if_neg inside] at whole
    split
    · rename_i comma
      rw [if_pos comma] at whole
      exact .goesOn (outcome_eq_map whole fun _ => rfl) onward
    · rename_i other
      rw [if_neg other] at whole
      exact .fails (congrArg outcome whole)

/-- One turn among the attributes of a list. -/
def attributeTurn (src : List Char) (ts : List Item) :
    Read (Turn (List Item) (List Attribute)) := do
  let named ← readQualifiedName ts
  let args ← readArgumentList src named.rest
  if Item.isMark .comma args.rest then
    return .goesOn (⟨named.value, args.value⟩ :: ·) args.rest.tail
  else
    let closed ← readMark .closeBracket args.rest
    return .ends [⟨named.value, args.value⟩] closed.rest

def attributes (src : List Char) : Loop (List Item) (List Attribute) where
  items := id
  turn := attributeTurn src
  read ts := outcome (readAttributes src ts)

theorem advances_attributes (src : List Char) : (attributes src).Advances := by
  intro ts
  show Loop.Takes _ _ (attributeTurn src ts)
  have whole := readAttributes.eq_1 src ts
  simp only [attributeTurn, bind, Except.bind]
  cases name : readQualifiedName ts with
  | error e =>
    rw [name] at whole
    exact .fails (congrArg outcome whole)
  | ok named =>
    rw [name] at whole
    dsimp only at whole ⊢
    cases list : readArgumentList src named.rest with
    | error e =>
      rw [list] at whole
      exact .fails (congrArg outcome whole)
    | ok args =>
      have first := args.short.trans_shorter named.shorter
      rw [list] at whole
      dsimp only at whole ⊢
      split
      · rename_i comma
        rw [if_pos comma] at whole
        exact .goesOn (outcome_eq_map whole fun _ => rfl)
          ((short_tail args.rest).trans_shorter first)
      · rename_i last
        rw [if_neg last] at whole
        cases mark : readMark .closeBracket args.rest with
        | error e =>
          rw [mark] at whole
          exact .fails (congrArg outcome whole)
        | ok closed =>
          rw [mark] at whole
          exact .ends (congrArg outcome whole) (closed.shorter.short.trans_shorter first).short

/-- One turn among the attribute lists in front of a declaration. -/
def listTurn (src : List Char) : List Item → Read (Turn (List Item) (List Attribute))
  | [] => .ok (.ends [] [])
  | t :: r =>
    if t.token = .mark .openBracket then do
      let list ← readAttributes src (dropTarget r)
      return .goesOn (list.value ++ ·) list.rest
    else .ok (.ends [] (t :: r))

def attributeLists (src : List Char) : Loop (List Item) (List Attribute) where
  items := id
  turn := listTurn src
  read ts := remainder (readAttributeLists src ts)

theorem advances_attributeLists (src : List Char) : (attributeLists src).Advances := by
  intro ts
  show Loop.Takes _ _ (listTurn src ts)
  cases ts with
  | nil => exact .ends (congrArg remainder (readAttributeLists.eq_1 src)) (short_self [])
  | cons t r =>
    have whole := readAttributeLists.eq_2 src t r
    simp only [listTurn, bind, Except.bind]
    split
    · rename_i bracket
      rw [if_pos bracket] at whole
      have first := (dropTarget_short r).trans_shorter (shorter_cons t r)
      cases read : readAttributes src (dropTarget r) with
      | error e =>
        rw [read] at whole
        exact .fails (congrArg remainder whole)
      | ok list =>
        rw [read] at whole
        exact .goesOn (remainder_eq_map whole fun _ => rfl) (list.shorter.short.trans_shorter first)
    · rename_i other
      rw [if_neg other] at whole
      exact .ends (congrArg remainder whole) (short_self (t :: r))

/-- One turn in the body of a namespace. What follows a namespace declaration without braces is next
in that namespace. -/
def namespaceTurn (src : List Char) (braced : Bool) (space : String) :
    List Item → Read (Turn (String × List Item) (List Part))
  | [] => if braced then faultAt (fun _ => .unterminatedNamespace) [] else .ok (.ends [] [])
  | t :: r =>
    if braced ∧ t.token = .mark .closeBrace then .ok (.ends [] (dropMark .semicolon r))
    else if t.token = .mark .semicolon then .ok (.goesOn id (space, r))
    else if t.token = .keyword .usingKw ∨ isGlobalUsing (t :: r) then do
      let imported ← readUsing (afterUsing t r)
      return .goesOn (imported.value ++ ·) (space, imported.rest)
    else if t.token = .keyword .externKw then .ok (.goesOn id (space, Skip.wholeMember r))
    else if t.token = .keyword .namespaceKw then do
      let named ← readQualifiedName r
      if Item.isMark .semicolon named.rest then
        return .goesOn id (qualify space named.value, named.rest.tail)
      else
        let opened ← readMark .openBrace named.rest
        let inner ← readNamespaceBody src (qualify space named.value) true opened.rest
        return .goesOn (inner.value ++ ·) (space, inner.rest)
    else if isGlobalAttribute (t :: r) then
      .ok (.goesOn id (space, Skip.wholeGroup .openBracket .closeBracket r))
    else do
      let declared ← readTopLevel src space (t :: r)
      return .goesOn (declared.value ++ ·) (space, declared.rest)

def namespaceBody (src : List Char) (braced : Bool) : Loop (String × List Item) (List Part) where
  items := Prod.snd
  turn s := namespaceTurn src braced s.1 s.2
  read s := remainder (readNamespaceBody src s.1 braced s.2)

section Parts
variable {src : List Char} {braced : Bool} {space : String} {t : Item} {r : List Item}

theorem takes_namespaceEnd :
    (namespaceBody src braced).Takes (space, []) (namespaceTurn src braced space []) := by
  have whole := readNamespaceBody.eq_1 src space braced
  rw [namespaceTurn]
  split
  · rename_i needed
    rw [if_pos needed] at whole
    exact .fails (congrArg remainder whole)
  · rename_i free
    rw [if_neg free] at whole
    exact .ends (congrArg remainder whole) (short_self [])

theorem takes_closingBrace (closes : braced = true ∧ t.token = .mark .closeBrace) :
    (namespaceBody src braced).Takes (space, t :: r) (namespaceTurn src braced space (t :: r)) := by
  have whole := readNamespaceBody.eq_2 src space braced t r
  rw [namespaceTurn]
  rw [if_pos closes] at whole ⊢
  exact .ends (congrArg remainder whole)
    ((dropMark_short .semicolon r).trans (shorter_cons t r).short)

theorem takes_semicolon (semicolon : t.token = .mark .semicolon) :
    (namespaceBody src braced).Takes (space, t :: r) (namespaceTurn src braced space (t :: r)) := by
  have whole := readNamespaceBody.eq_2 src space braced t r
  have inside : ¬ (braced = true ∧ t.token = .mark .closeBrace) := by simp [semicolon]
  rw [namespaceTurn]
  rw [if_neg inside, if_pos semicolon] at whole ⊢
  exact .goesOn (remainder_eq_map whole fun _ => rfl) (shorter_cons t r)

theorem takes_using (inside : ¬ (braced = true ∧ t.token = .mark .closeBrace))
    (nonempty : t.token ≠ .mark .semicolon)
    (directive : t.token = .keyword .usingKw ∨ isGlobalUsing (t :: r) = true) :
    (namespaceBody src braced).Takes (space, t :: r) (namespaceTurn src braced space (t :: r)) := by
  have whole := readNamespaceBody.eq_2 src space braced t r
  rw [namespaceTurn]
  rw [if_neg inside, if_neg nonempty, if_pos directive] at whole ⊢
  simp only [bind, Except.bind]
  cases read : readUsing (afterUsing t r) with
  | error e =>
    rw [read] at whole
    exact .fails (congrArg remainder whole)
  | ok imported =>
    rw [read] at whole
    exact .goesOn (remainder_eq_map whole fun _ => rfl)
      ((imported.short.trans (afterUsing_short t r)).trans_shorter (shorter_cons t r))

theorem takes_extern (plain : isGlobalUsing (t :: r) = false)
    (externs : t.token = .keyword .externKw) :
    (namespaceBody src braced).Takes (space, t :: r) (namespaceTurn src braced space (t :: r)) := by
  have whole := readNamespaceBody.eq_2 src space braced t r
  have inside : ¬ (braced = true ∧ t.token = .mark .closeBrace) := by simp [externs]
  have nonempty : t.token ≠ .mark .semicolon := by simp [externs]
  have own : ¬ (t.token = .keyword .usingKw ∨ isGlobalUsing (t :: r) = true) := by
    simp [externs, plain]
  rw [namespaceTurn]
  rw [if_neg inside, if_neg nonempty, if_neg own, if_pos externs] at whole ⊢
  exact .goesOn (remainder_eq_map whole fun _ => rfl)
    ((Skip.wholeMember_short r).trans_shorter (shorter_cons t r))

theorem takes_namespace (plain : isGlobalUsing (t :: r) = false)
    (keyword : t.token = .keyword .namespaceKw) :
    (namespaceBody src braced).Takes (space, t :: r) (namespaceTurn src braced space (t :: r)) := by
  have whole := readNamespaceBody.eq_2 src space braced t r
  have inside : ¬ (braced = true ∧ t.token = .mark .closeBrace) := by simp [keyword]
  have nonempty : t.token ≠ .mark .semicolon := by simp [keyword]
  have own : ¬ (t.token = .keyword .usingKw ∨ isGlobalUsing (t :: r) = true) := by
    simp [keyword, plain]
  have internal : t.token ≠ .keyword .externKw := by simp [keyword]
  rw [namespaceTurn]
  rw [if_neg inside, if_neg nonempty, if_neg own, if_neg internal, if_pos keyword] at whole ⊢
  simp only [bind, Except.bind]
  cases name : readQualifiedName r with
  | error e =>
    rw [name] at whole
    exact .fails (congrArg remainder whole)
  | ok named =>
    rw [name] at whole
    dsimp only at whole ⊢
    have behind := named.shorter.short.trans_shorter (shorter_cons t r)
    split
    · rename_i semicolon
      rw [if_pos semicolon] at whole
      exact .goesOn (remainder_eq_map whole fun _ => rfl)
        ((short_tail named.rest).trans_shorter behind)
    rename_i wrapped
    rw [if_neg wrapped] at whole
    cases mark : readMark .openBrace named.rest with
    | error e =>
      rw [mark] at whole
      exact .fails (congrArg remainder whole)
    | ok opened =>
      rw [mark] at whole
      dsimp only at whole ⊢
      cases body : readNamespaceBody src (qualify space named.value) true opened.rest with
      | error e =>
        rw [body] at whole
        exact .fails (congrArg remainder whole)
      | ok inner =>
        rw [body] at whole
        exact .goesOn (remainder_eq_map whole fun _ => rfl)
          ((inner.short.trans opened.shorter.short).trans_shorter behind)

/-- What no other kind of part begins is a global attribute or the declaration of a type. -/
theorem takes_declaration (inside : ¬ (braced = true ∧ t.token = .mark .closeBrace))
    (nonempty : t.token ≠ .mark .semicolon)
    (plain : ¬ (t.token = .keyword .usingKw ∨ isGlobalUsing (t :: r) = true))
    (internal : t.token ≠ .keyword .externKw) (other : t.token ≠ .keyword .namespaceKw) :
    (namespaceBody src braced).Takes (space, t :: r) (namespaceTurn src braced space (t :: r)) := by
  have whole := readNamespaceBody.eq_2 src space braced t r
  rw [namespaceTurn]
  rw [if_neg inside, if_neg nonempty, if_neg plain, if_neg internal, if_neg other] at whole ⊢
  simp only [bind, Except.bind]
  split
  · rename_i target
    rw [if_pos target] at whole
    exact .goesOn (remainder_eq_map whole fun _ => rfl)
      ((Skip.wholeGroup_short .openBracket .closeBracket r).trans_shorter (shorter_cons t r))
  · rename_i own
    rw [if_neg own] at whole
    cases read : readTopLevel src space (t :: r) with
    | error e =>
      rw [read] at whole
      exact .fails (congrArg remainder whole)
    | ok declared =>
      rw [read] at whole
      exact .goesOn (remainder_eq_map whole fun _ => rfl) declared.shorter

end Parts

theorem advances_namespaceBody (src : List Char) (braced : Bool) :
    (namespaceBody src braced).Advances := by
  rintro ⟨space, ts⟩
  cases ts with
  | nil => exact takes_namespaceEnd
  | cons t r =>
    by_cases closes : braced = true ∧ t.token = .mark .closeBrace
    · exact takes_closingBrace closes
    by_cases semicolon : t.token = .mark .semicolon
    · exact takes_semicolon semicolon
    by_cases directive : t.token = .keyword .usingKw ∨ isGlobalUsing (t :: r) = true
    · exact takes_using closes semicolon directive
    have plain : isGlobalUsing (t :: r) = false := Bool.eq_false_iff.mpr (directive ∘ .inr)
    by_cases externs : t.token = .keyword .externKw
    · exact takes_extern plain externs
    by_cases keyword : t.token = .keyword .namespaceKw
    · exact takes_namespace plain keyword
    · exact takes_declaration closes semicolon directive externs keyword

end Host

end Ambient
