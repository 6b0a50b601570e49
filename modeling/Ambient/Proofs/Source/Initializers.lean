import Ambient.Proofs.Source.Members

/-!
# Where initializers end

The initializers of fields and properties are passed over. An angle bracket right after an
identifier is taken to open a list of type arguments, in which neither a comma nor a semicolon
ends the initializer. So one in which every such list is closed again ends where it should, and
the members after it are read as if it were not there. A comparison such as `a < b` opens a list
that nothing closes.
-/
namespace Ambient

/-- Brackets that open a group and the ones that close it. -/
inductive Mark.Pair : Mark → Mark → Prop
  | parens : Pair .openParen .closeParen
  | brackets : Pair .openBracket .closeBracket
  | braces : Pair .openBrace .closeBrace

namespace Token

/-- Neither opens nor closes a group. -/
def IsFlat (t : Token) : Prop :=
  ∀ opening closing, Mark.Pair opening closing → t ≠ .mark opening ∧ t ≠ .mark closing

def IsSeparator (t : Token) : Prop := t = .mark .comma ∨ t = .mark .semicolon

/-- Tokens whose groups are balanced. Unless they are `inside` a group, no comma and no semicolon
stands outside their groups. -/
inductive Balanced : Bool → List Token → Prop
  | nil {inside : Bool} : Balanced inside []
  | flat {inside : Bool} {t : Token} {ts : List Token} : t.IsFlat →
    (inside = true ∨ ¬ t.IsSeparator) → Balanced inside ts → Balanced inside (t :: ts)
  | group {inside : Bool} {opening closing : Mark} {ts us : List Token} : opening.Pair closing →
    Balanced true ts → Balanced inside us →
    Balanced inside (.mark opening :: (ts ++ .mark closing :: us))

/-- Whether a name stands before, and how many lists of type arguments are open: an angle bracket
right after an identifier opens one. -/
def track (seen : Bool × Nat) (t : Token) : Bool × Nat :=
  (Skip.isIdent t, match t with
    | .mark .openAngle => if seen.1 then seen.2 + 1 else seen.2
    | .mark .closeAngle => seen.2 - 1
    | _ => seen.2)

/-- The lists of type arguments that an initializer leaves open. -/
def openLists (ts : List Token) : Nat := (ts.foldl track (false, 0)).2

/-- The marks that open or close a group. -/
def grouping : List Mark :=
  [.openParen, .closeParen, .openBracket, .closeBracket, .openBrace, .closeBrace]

theorem isFlat_iff {t : Token} : t.IsFlat ↔ ∀ m ∈ grouping, t ≠ .mark m := by
  constructor
  · intro flat
    have parens := flat _ _ .parens
    have brackets := flat _ _ .brackets
    have braces := flat _ _ .braces
    simp [grouping, parens, brackets, braces]
  · intro other opening closing pair
    cases pair <;> exact ⟨other _ (by decide), other _ (by decide)⟩

instance (t : Token) : Decidable t.IsFlat := decidable_of_iff _ isFlat_iff.symm

instance (t : Token) : Decidable t.IsSeparator :=
  inferInstanceAs (Decidable (t = .mark .comma ∨ t = .mark .semicolon))

end Token

namespace Skip
open Token
variable {opening closing : Mark} {n : Nesting} {t : Token}

theorem step?_opening (pair : opening.Pair closing) :
    n.step? true (.mark opening) =
      some ⟨n.depth + 1, (track (n.afterName, n.angles) (.mark opening)).2, false⟩ := by
  cases pair <;> rfl

theorem step?_closing (pair : opening.Pair closing) (deep : n.depth ≠ 0) :
    n.step? true (.mark closing) =
      some ⟨n.depth - 1, (track (n.afterName, n.angles) (.mark closing)).2, false⟩ := by
  cases pair <;> exact if_neg deep

theorem step?_separator (separator : t.IsSeparator) : n.step? true t =
    if n.depth = 0 ∧ n.angles = 0 then none else some ⟨n.depth, n.angles, false⟩ := by
  rcases separator with rfl | rfl <;> rfl

theorem step?_flat (flat : t.IsFlat) (on : n.depth ≠ 0 ∨ ¬ t.IsSeparator) :
    n.step? true t = some ⟨n.depth, (track (n.afterName, n.angles) t).2, isIdent t⟩ := by
  have parens := flat _ _ .parens
  have brackets := flat _ _ .brackets
  have braces := flat _ _ .braces
  by_cases separator : t.IsSeparator
  · rw [step?_separator separator, if_neg fun outside => on.elim (· outside.1) (· separator)]
    rcases separator with rfl | rfl <;> rfl
  cases t with
  | mark m => cases m <;> first | rfl | simp_all [IsSeparator]
  | ident name => rfl
  | text value => rfl
  | character => rfl
  | number spelled => rfl
  | keyword k => rfl
  | op c => rfl

/-- Over a balanced text an expression goes on at the depth where it began. -/
theorem expression_balanced {inside : Bool} {ts : List Token} (balanced : Balanced inside ts) :
    ∀ (read rest : List Item) (n : Nesting), read.map (·.token) = ts →
      (inside = true → n.depth ≠ 0) →
        expression true n (read ++ rest) =
          expression true ⟨n.depth, (ts.foldl track (n.afterName, n.angles)).2,
            (ts.foldl track (n.afterName, n.angles)).1⟩ rest := by
  induction balanced with
  | nil =>
    intro read rest n tokens _
    rw [List.map_eq_nil_iff.mp tokens]
    rfl
  | @flat inside t ts flat on _ ih =>
    intro read rest n tokens deep
    obtain ⟨i, more, rfl, rfl, later⟩ := List.map_eq_cons_iff.mp tokens
    rw [List.cons_append, expression, step?_flat flat (on.imp_left deep)]
    exact ih more rest _ later deep
  | @group inside opening closing ts us pair _ _ ihInside ihAfter =>
    intro read rest n tokens deep
    obtain ⟨i, more, rfl, first, later⟩ := List.map_eq_cons_iff.mp tokens
    obtain ⟨inner, behind, rfl, within, closed⟩ := List.map_eq_append_iff.mp later
    obtain ⟨j, after, rfl, last, outside⟩ := List.map_eq_cons_iff.mp closed
    rw [List.cons_append, expression, first, step?_opening pair, List.append_assoc,
      List.cons_append]
    dsimp only
    rw [ihInside inner _ _ within fun _ => Nat.succ_ne_zero _, expression, last,
      step?_closing pair (Nat.succ_ne_zero _)]
    have ends := ihAfter after rest
      ⟨n.depth,
        (track ((ts.foldl track (track (n.afterName, n.angles) (.mark opening))))
          (.mark closing)).2, false⟩ outside deep
    rw [List.foldl_cons, List.foldl_append, List.foldl_cons]
    exact ends

/-- A separator outside all groups ends an initializer exactly if no list of type
arguments is open. -/
theorem expression_stops_iff {read rest : List Item} {i : Item}
    (balanced : Balanced false (read.map (·.token))) (separator : i.token.IsSeparator) :
    expression true .outside (read ++ i :: rest) = i :: rest ↔
      openLists (read.map (·.token)) = 0 := by
  rw [expression_balanced balanced read (i :: rest) .outside rfl fun inside => by cases inside]
  show expression true ⟨0, openLists _, _⟩ (i :: rest) = _ ↔ _
  rw [expression, step?_separator separator]
  by_cases closed : openLists (read.map (·.token)) = 0
  · simp [closed]
  · simp only [closed, and_false, if_false, iff_false]
    intro same
    have short := (expression_short true ⟨0, openLists (read.map (·.token)), false⟩ rest).1
    rw [same, List.length_cons] at short
    omega

end Skip

namespace Host
open Token
variable {src : List Char} {typeName space written name : String} {ts rest after start : List Item}
  {names : List String} {value : Option (List Token)} {values : List (List Token)}
  {lead : Lead} {modifiers : Modifiers}

/-- An equals sign and a balanced text, or nothing. -/
def IsInitializer : Option (List Token) → List Item → Prop
  | none, ts => ts = []
  | some value, ts => ∃ e read, ts = e :: read ∧ e.token = .mark .equals ∧
    read.map (·.token) = value ∧ Balanced false value

/-- The items of a field list from its first name on, the names and the initializers. -/
inductive FieldList : List Item → List String → List (List Token) → Prop
  | last {i semicolon : Item} {name : String} {init : List Item} {value : Option (List Token)} :
    nameOf? i.token = some name → IsInitializer value init →
      semicolon.token = .mark .semicolon →
    FieldList (i :: (init ++ [semicolon])) [name] value.toList
  | more {i comma : Item} {name : String} {init : List Item} {value : Option (List Token)}
    {ts : List Item} {names : List String} {values : List (List Token)} :
    nameOf? i.token = some name → IsInitializer value init → comma.token = .mark .comma →
    FieldList ts names values →
    FieldList (i :: (init ++ comma :: ts)) (name :: names) (value.toList ++ values)

theorem skipDefault_initializer {init : List Item} {i : Item} (h : IsInitializer value init)
    (closed : ∀ v ∈ value, openLists v = 0) (separator : i.token.IsSeparator)
    (rest : List Item) :
    skipDefault (init ++ i :: rest) = i :: rest := by
  unfold skipDefault
  cases value with
  | none =>
    have none : Item.isMark .equals (i :: rest) = false := by
      rcases separator with comma | semicolon
      · simp [Item.isMark, Item.token?, comma]
      · simp [Item.isMark, Item.token?, semicolon]
    rw [h, List.nil_append, none]
    rfl
  | some value =>
    obtain ⟨e, read, rfl, equals, rfl, balanced⟩ := h
    have some : Item.isMark .equals (e :: read ++ i :: rest) = true := by
      simp [Item.isMark, Item.token?, equals]
    rw [some, if_pos rfl]
    exact (Skip.expression_stops_iff balanced separator).mpr (closed _ rfl)

theorem takes_readFieldNames_last {i : Item} (default : skipDefault ts = i :: rest)
    (semicolon : i.token = .mark .semicolon) : Takes (readFieldNames name ts) [name] rest := by
  rw [takes_iff, readFieldNames]
  split
  · rename_i none
    have none := congrArg Left.rest none
    cases default.symm.trans none
  · rename_i found
    have found := congrArg Left.rest found
    cases default.symm.trans found
    rw [if_neg (by rw [semicolon]; decide), if_pos semicolon]
    rfl

theorem takes_readFieldNames_more {i : Item} {more : List Item} {next : String}
    (default : skipDefault ts = i :: more) (comma : i.token = .mark .comma)
    (named : Takes (readName more) next after)
    (others : Takes (readFieldNames next after) names rest) :
    Takes (readFieldNames name ts) (name :: names) rest := by
  rw [takes_iff, readFieldNames]
  split
  · rename_i none
    have none := congrArg Left.rest none
    cases default.symm.trans none
  · rename_i found
    have found := congrArg Left.rest found
    cases default.symm.trans found
    obtain ⟨_, read⟩ := named
    obtain ⟨_, again⟩ := others
    rw [if_pos comma]
    simp only [read, again]
    rfl

/-- A field goes on with its initializer or with what follows it. -/
theorem startsField_initializer {init : List Item} {i : Item} (h : IsInitializer value init)
    (separator : i.token.IsSeparator) : ∃ m ∈ [Mark.equals, .comma, .semicolon],
      Item.token? (init ++ i :: rest) = some (.mark m) := by
  cases value with
  | none =>
    rw [h]
    rcases separator with comma | semicolon
    · exact ⟨.comma, by decide, congrArg some comma⟩
    · exact ⟨.semicolon, by decide, congrArg some semicolon⟩
  | some value =>
    obtain ⟨e, read, rfl, equals, -, -⟩ := h
    exact ⟨.equals, by decide, congrArg some equals⟩

theorem takes_readFieldNames {fields : List Item} (list : FieldList fields names values)
    (closed : ∀ v ∈ values, openLists v = 0) (rest : List Item) :
    ∃ i tail name, fields = i :: tail ∧ nameOf? i.token = some name ∧
      (∃ m ∈ [Mark.equals, .comma, .semicolon], Item.token? tail = some (.mark m)) ∧
      Takes (readFieldNames name (tail ++ rest)) names rest := by
  induction list with
  | @last i semicolon name init value named initializer ends =>
    have default := skipDefault_initializer initializer
      (fun v hv => closed v (Option.mem_toList.mpr hv)) (.inr ends) rest
    refine ⟨i, init ++ [semicolon], name, rfl, named,
      startsField_initializer initializer (.inr ends), ?_⟩
    rw [List.append_assoc, List.singleton_append]
    exact takes_readFieldNames_last default ends
  | @more i comma name init value ts names values named initializer separates _ ih =>
    obtain ⟨j, tail, next, rfl, second, -, read⟩ :=
      ih fun v hv => closed v (List.mem_append_right _ hv)
    have default := skipDefault_initializer initializer
      (fun v hv => closed v (List.mem_append_left _ (Option.mem_toList.mpr hv))) (.inl separates)
      (j :: tail ++ rest)
    refine ⟨i, init ++ comma :: j :: tail, name, rfl, named,
      startsField_initializer initializer (.inl separates), ?_⟩
    rw [List.append_assoc, List.cons_append]
    exact takes_readFieldNames_more default separates (takes_readName_of second) read

/-- The items of a member from its name on, the names it declares and its initializers: a field
list, or a property with accessors that have no bodies. -/
inductive Declarators : List Item → List String → List (List Token) → Prop
  | fields {ts : List Item} {names : List String} {values : List (List Token)} :
    FieldList ts names values → Declarators ts names values
  | property {i semicolon : Item} {name : String} {accessors init : List Item}
    {value : List Token} : nameOf? i.token = some name →
    accessors.map (·.token) = autoAccessors → IsInitializer (some value) init →
    semicolon.token = .mark .semicolon →
    Declarators (i :: (accessors ++ init ++ [semicolon])) [name] [value]

theorem leaves_passDefault (default : skipDefault ts = rest) : Leaves (passDefault ts) () rest := by
  subst default
  exact ⟨skipDefault_short ts, rfl⟩

theorem takes_readProperty {inside init : List Item} {semicolon : Item} {readable : Bool}
    {tokens : List Token}
    (accessors : Takes (readAccessors src inside) readable (init ++ semicolon :: rest))
    (initializer : IsInitializer (some tokens) init) (closed : openLists tokens = 0)
    (ends : semicolon.token = .mark .semicolon) :
    Takes (readProperty src inside) readable rest := by
  obtain ⟨_, read⟩ := accessors
  obtain ⟨_, default⟩ := leaves_passDefault (skipDefault_initializer initializer
    (fun v hv => Option.some.inj hv ▸ closed) (.inr ends) rest)
  obtain ⟨_, mark⟩ : Takes (readMark .semicolon (semicolon :: rest)) () rest :=
    takes_readMark rfl ends
  have equals : Item.isMark .equals (init ++ semicolon :: rest) = true := by
    obtain ⟨e, value, rfl, equals, -, -⟩ := initializer
    simp [Item.isMark, Item.token?, equals]
  rw [takes_iff, readProperty]
  simp only [read, equals, if_true]
  generalize passDefault (init ++ semicolon :: rest) = left at default ⊢
  subst default
  simp only [mark]
  rfl

theorem passes_readMemberTail (src : List Char) (declares : Declarators ts names values)
    (closed : ∀ v ∈ values, openLists v = 0) (rest : List Item) :
    ∃ i tail name, ts = i :: tail ∧ nameOf? i.token = some name ∧
      Passes (readMemberTail src name (tail ++ rest)) names rest := by
  cases declares with
  | fields list =>
    obtain ⟨i, tail, name, rfl, named, ⟨m, hm, first⟩, _, read⟩ :=
      takes_readFieldNames list closed rest
    have found : Item.token? (tail ++ rest) = some (.mark m) := by
      cases tail with
      | nil => cases first
      | cons j more => exact first
    refine ⟨i, tail, name, rfl, named, ?_⟩
    unfold readMemberTail
    simp only [List.mem_cons, List.not_mem_nil, or_false] at hm
    rcases hm with rfl | rfl | rfl <;> simp only [found, read] <;> exact ⟨_, rfl⟩
  | @property i semicolon name accessors init value named auto initializer ends =>
    obtain ⟨opens, inside, rfl, opening, read⟩ :=
      @takes_readAccessors_autoAccessors src accessors auto (init ++ semicolon :: rest)
    obtain ⟨_, property⟩ := takes_readProperty read initializer
      (closed value (List.mem_singleton_self value)) ends
    refine ⟨i, _, name, rfl, named, ?_⟩
    have items : opens :: inside ++ init ++ [semicolon] ++ rest =
        opens :: (inside ++ (init ++ semicolon :: rest)) := by simp
    have found : Item.token? (opens :: (inside ++ (init ++ semicolon :: rest))) =
        some (.mark .openBrace) := congrArg some opening
    rw [items]
    unfold readMemberTail
    simp only [found, List.tail_cons, property]
    exact ⟨_, rfl⟩

/-- The members declared under the names. -/
def exportedMembers (names : List String) (written : String) (lead : Lead) (modifiers : Modifiers) :
    List Member :=
  if modifiers.exported then
    names.map fun name => plainMember name written (Summary.ofDocs lead.docs) lead.attributes
  else []

/-- A separator outside all brackets ends an initializer exactly if no list of type arguments is
open there. A member of a class whose initializers leave none open declares its names with its type,
and the body is read on behind its semicolon, whatever the initializers are. -/
theorem readClassBody_declarators (src : List Char) (typeName space : String) :
    (∀ (value : List Item) (i : Item) (rest : List Item),
      Balanced false (value.map (·.token)) → i.token.IsSeparator →
        (Skip.expression true .outside (value ++ i :: rest) = i :: rest ↔
          openLists (value.map (·.token)) = 0)) ∧
      ∀ (written : String) (lead : Lead) (modifiers : Modifiers) (ts fields rest : List Item)
        (names : List String) (values : List (List Token)),
        Begins src typeName ts lead modifiers written (fields ++ rest) →
        Declarators fields names values → (∀ value ∈ values, openLists value = 0) →
          outcome (readClassBody src typeName space ts) =
            (outcome (readClassBody src typeName space rest)).map
              (Prod.map (Body.addMembers (exportedMembers names written lead modifiers)) id) := by
  refine ⟨fun value i rest balanced separator =>
    Skip.expression_stops_iff balanced separator, ?_⟩
  intro written lead modifiers ts fields rest names values begins declares closed
  obtain ⟨i, tail, name, rfl, named, read⟩ := passes_readMemberTail src declares closed rest
  exact begins.readClassBody named read

/-- The body of a class with a field whose initializer compares a call with a shift. -/
def shifted : String := "public bool A = F<int>(1, 2) > 1 << 2, B; public int C; \x7d"

theorem readClassBody_declarators_of_shifted :
    let ts := Item.ofText shifted
    let item (n : Nat) := ts.getD n ⟨.character, [], 0, 0⟩
    let value := (ts.drop 4).take 14
    let fields := item 2 :: (item 3 :: value ++ item 18 :: item 19 :: ([] ++ [item 20]))
    let rest := ts.drop 21
    let lead : Lead := ⟨[], []⟩
    let modifiers := { Modifiers.absent with isPublic := true }
    (Balanced false (value.map (·.token)) ∧ (item 18).token.IsSeparator ∧
      (Skip.expression true .outside (value ++ item 18 :: rest) = item 18 :: rest ↔
        openLists (value.map (·.token)) = 0)) ∧
      Begins shifted.toList "P" ts lead modifiers "bool" (fields ++ rest) ∧
      Declarators fields ["A", "B"] [value.map (·.token)] ∧
      (∀ v ∈ [value.map (·.token)], openLists v = 0) ∧
      outcome (readClassBody shifted.toList "P" "App" ts) =
        (outcome (readClassBody shifted.toList "P" "App" rest)).map
          (Prod.map (Body.addMembers (exportedMembers ["A", "B"] "bool" lead modifiers)) id) := by
  intro ts item value fields rest lead modifiers
  have tokens : value.map (·.token) = [.ident "F", .mark .openAngle, .ident "int",
      .mark .closeAngle, .mark .openParen, .number "1", .mark .comma, .number "2",
      .mark .closeParen, .mark .closeAngle, .number "1", .mark .openAngle, .mark .openAngle,
      .number "2"] := by
    with_unfolding_all rfl
  have balanced : Balanced false (value.map (·.token)) := by
    have arguments : Balanced true [.number "1", .mark .comma, .number "2"] :=
      .flat (by decide) (.inl rfl)
        (.flat (by decide) (.inl rfl) (.flat (by decide) (.inl rfl) .nil))
    rw [tokens]
    repeat first
      | exact .nil
      | refine .group .parens arguments ?_
      | refine .flat (by decide) (.inr (by decide)) ?_
  have begins : Begins shifted.toList "P" ts lead modifiers "bool" (fields ++ rest) :=
    ⟨by with_unfolding_all rfl, by with_unfolding_all rfl, ts, ts.drop 1,
      ⟨short_self _, by with_unfolding_all rfl⟩,
      ⟨.of_suffix (List.drop_suffix 1 ts), by with_unfolding_all rfl⟩,
      by with_unfolding_all rfl, by with_unfolding_all rfl,
      takes_iff.mpr (by with_unfolding_all rfl)⟩
  have declares : Declarators fields ["A", "B"] [value.map (·.token)] := by
    have last : FieldList (item 19 :: ([] ++ [item 20])) ["B"] [] :=
      @FieldList.last _ _ _ _ none (by with_unfolding_all rfl) rfl (by with_unfolding_all rfl)
    have init : IsInitializer (some (value.map (·.token))) (item 3 :: value) :=
      ⟨item 3, value, rfl, by with_unfolding_all rfl, rfl, balanced⟩
    exact .fields (.more (by with_unfolding_all rfl) init (by with_unfolding_all rfl) last)
  have closed : ∀ v ∈ [value.map (·.token)], openLists v = 0 := by
    rw [tokens]
    decide
  have separator : (item 18).token.IsSeparator := .inl (by with_unfolding_all rfl)
  have shown := readClassBody_declarators shifted.toList "P" "App"
  exact ⟨⟨balanced, separator, shown.1 value (item 18) rest balanced separator⟩,
    begins, declares, closed, shown.2 _ _ _ _ _ _ _ _ begins declares closed⟩

/-- A comparison with `<` opens a list that nothing closes. The semicolon behind it does not end the
initializer, and neither does anything else before the end of the class. -/
example : File.parse ⟨"/p/P.cs"⟩ "class P \x7b public bool A = x < y; public int B; \x7d" =
    .error ⟨.expectedMark .semicolon (some (.mark .closeBrace)), some 47⟩ := by
  with_unfolding_all rfl

end Host

end Ambient
