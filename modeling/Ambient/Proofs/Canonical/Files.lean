import Ambient.Proofs.Canonical.Declarations

/-!
# Files read back

The body of a file is read part by part: the namespaces that are used, and the types, each in the
namespace around it. Each part is read whatever is read behind it, so the parts of a whole file are
its usings and its types.
-/
namespace Ambient.Host
variable {src text : List Char} {docs : List String} {ts rest after : List Item}
  {space : String} {braced : Bool} {parts : List Part}

theorem passes_iff {α : Type} {read : Read (Left α ts)} {value : α} :
    Passes read value rest ↔ (read.map fun l => (l.value, l.rest)) = .ok (value, rest) := by
  cases read with
  | error e => exact ⟨fun ⟨_, same⟩ => (nomatch same), fun same => nomatch same⟩
  | ok l =>
    obtain ⟨v, left, short⟩ := l
    constructor
    · rintro ⟨_, same⟩
      cases same
      rfl
    · intro same
      cases same
      exact ⟨short, rfl⟩

theorem passes_readNamespaceBody_nil : Passes (readNamespaceBody src space false []) [] [] := by
  rw [passes_iff, readNamespaceBody]
  rfl

theorem passes_readNamespaceBody_close {t : Item} (closes : t.token = .mark .closeBrace)
    (ends : Item.isMark .semicolon rest = false) :
    Passes (readNamespaceBody src space true (t :: rest)) [] rest := by
  rw [passes_iff, readNamespaceBody, if_pos ⟨rfl, closes⟩]
  show Except.ok ([], dropMark .semicolon rest) = _
  rw [dropMark_eq ends]

theorem passes_readUsing {name : String} {semicolon : Item}
    (spells : Spells name ts (semicolon :: rest))
    (ends : semicolon.token = .mark .semicolon) : Passes (readUsing ts) [.imported name] rest := by
  have apart : ∀ m, m ≠ .semicolon → Item.isMark m (semicolon :: rest) = false :=
    fun m other => TypeSyntax.isMark_of_mark ends other.symm
  have equals : Item.ahead 1 ts ≠ some (.mark .equals) :=
    spells.ahead_ne (by decide) (apart _ (by decide))
  obtain ⟨_, named⟩ :=
    takes_readQualifiedName spells (apart _ (by decide)) (apart _ (by decide))
  obtain ⟨_, marked⟩ : Takes (readMark .semicolon (semicolon :: rest)) () rest :=
    takes_readMark rfl ends
  obtain ⟨i, q, first, rfl, token⟩ := spells.head
  have plain :
      (Item.isKeyword .staticKw (i :: q) || Item.ahead 1 (i :: q) == some (.mark .equals)) =
      false := by
    simp [Item.isKeyword, Item.token?, token, equals]
  have statement : Item.isMark .openParen (i :: q) = false := by
    simp [Item.isMark, Item.token?, token]
  rw [passes_iff, readUsing, plain, statement, named]
  simp only [Bool.false_eq_true, if_false, marked]
  rfl

theorem passes_readNamespaceBody_using {t : Item} {imported : List Part} {us : List Item}
    (keyword : t.token = .keyword .usingKw) (imports : Passes (readUsing us) imported rest)
    (more : Passes (readNamespaceBody src space braced rest) parts after) :
    Passes (readNamespaceBody src space braced (t :: us)) (imported ++ parts) after := by
  have onward : afterUsing t us = us := if_pos keyword
  rw [← onward] at imports
  obtain ⟨_, imports⟩ := imports
  obtain ⟨_, again⟩ := more
  rw [passes_iff, readNamespaceBody, if_neg (by simp [keyword]), if_neg (by simp [keyword]),
    if_pos (.inl keyword), imports]
  simp only [again]
  rfl

theorem passes_readNamespaceBody_namespace {t brace : Item} {name : String} {us inside : List Item}
    {inner : List Part} (keyword : t.token = .keyword .namespaceKw)
    (named : Takes (readQualifiedName us) name (brace :: inside))
    (opens : brace.token = .mark .openBrace)
    (body : Passes (readNamespaceBody src (qualify space name) true inside) inner rest)
    (more : Passes (readNamespaceBody src space braced rest) parts after) :
    Passes (readNamespaceBody src space braced (t :: us)) (inner ++ parts) after := by
  obtain ⟨_, named⟩ := named
  obtain ⟨_, opened⟩ : Takes (readMark .openBrace (brace :: inside)) () inside :=
    takes_readMark rfl opens
  obtain ⟨_, body⟩ := body
  obtain ⟨_, again⟩ := more
  have wrapped : Item.isMark .semicolon (brace :: inside) = false :=
    TypeSyntax.isMark_of_mark opens (by decide)
  have globally : isGlobalUsing (t :: us) = false := by
    simp [isGlobalUsing, Item.token?, keyword]
  rw [passes_iff, readNamespaceBody, if_neg (by simp [keyword]), if_neg (by simp [keyword]),
    if_neg (by simp [keyword, globally]), if_neg (by simp [keyword]), if_pos keyword, named]
  simp only [wrapped, Bool.false_eq_true, if_false, opened, body, again]
  rfl

theorem passes_readNamespaceBody_declared {declared : List Part} (opens : OpensPublic ts)
    (top : Takes (readTopLevel src space ts) declared rest)
    (more : Passes (readNamespaceBody src space braced rest) parts after) :
    Passes (readNamespaceBody src space braced ts) (declared ++ parts) after := by
  obtain ⟨taken, top⟩ := top
  obtain ⟨_, again⟩ := more
  cases ts with
  | nil => exact absurd taken.1 (Nat.not_lt_zero _)
  | cons t r =>
    have first : t.token = .mark .openBracket ∨ t.token = .keyword .publicKw :=
      opens.imp (fun list => Option.some.inj list.1) Option.some.inj
    have globally : isGlobalUsing (t :: r) = false := by
      rcases first with token | token <;> simp [isGlobalUsing, Item.token?, token]
    have target : isGlobalAttribute (t :: r) = false := by
      rcases opens with ⟨-, colon⟩ | publicly
      · simp only [isGlobalAttribute, Bool.and_eq_false_imp, beq_eq_false_iff_ne]
        exact fun _ => colon
      · rw [isGlobalAttribute, Item.isMark, publicly]
        rfl
    have other : ∀ u : Token, u ≠ .mark .openBracket → u ≠ .keyword .publicKw →
        t.token ≠ u := by
      rintro u list publicly rfl
      exact first.elim list publicly
    rw [passes_iff, readNamespaceBody, if_neg (fun h => other _ (by decide) (by decide) h.2),
      if_neg (other _ (by decide) (by decide)),
      if_neg (fun h => h.elim (other _ (by decide) (by decide)) (by simp [globally])),
      if_neg (other _ (by decide) (by decide)), if_neg (other _ (by decide) (by decide)),
      target, top]
    simp only [Bool.false_eq_true, if_false, again]
    rfl

theorem takes_readTopLevel {lead : Lead} {afterLead : List Item} {modifiers : Modifiers} {t : Item}
    {start : List Item} {decl : TypeDecl} (front : Passes (readLead src ts) lead afterLead)
    (modified : Leaves (readModifiers .absent afterLead) modifiers (t :: start))
    (other : t.token ≠ .keyword .delegateKw)
    (type : Takes (readType src space lead (t :: start)) decl rest) :
    Takes (readTopLevel src space ts) [.declared decl] rest := by
  obtain ⟨_, front⟩ := front
  obtain ⟨_, modified⟩ := modified
  obtain ⟨_, type⟩ := type
  rw [takes_iff, readTopLevel, front]
  simp only
  rw [modified]
  simp only [if_neg other, type]
  rfl

theorem TypeDecl.WellFormed.takes_readTopLevel {t : TypeDecl} (formed : t.WellFormed)
    (laid : Laid src [] (t.print ++ text) ts) :
    ∃ rest, Laid src [] text rest ∧ OpensPublic ts ∧ (Item.isMark .semicolon rest = false →
      Takes (readTopLevel src space ts) [.declared (t.kept space)] rest) := by
  have ⟨_, _, front, _, _⟩ := formed
  rw [TypeDecl.print_eq, List.append_assoc, List.append_assoc] at laid
  obtain ⟨docs, us, laid, opens, lead, front, summarized, attributed⟩ :=
    passes_readLead front fronts_publicly laid
  obtain ⟨p, vs, rfl, publicly, -, laid⟩ := Laid.publicly laid
  obtain ⟨rest, laid, keyword, type⟩ := formed.readsBack laid summarized attributed
  have modified : Leaves (readModifiers .absent (p :: vs)) _ vs :=
    leaves_readModifiers_public publicly (leaves_readModifiers_kind keyword)
  refine ⟨rest, laid, opensPublic_of_lead opens publicly, fun ends => ?_⟩
  cases vs with
  | nil => cases keyword
  | cons k start =>
    have declares : k.token = .keyword t.kind.keyword := Option.some.inj keyword
    refine Host.takes_readTopLevel front modified ?_ (type ends)
    rw [declares]
    cases t.kind <;> simp [Kind.keyword]

/-- A type of a file goes to its parts, with the namespace around it if it has one. -/
theorem TypeDecl.WellFormed.passes_readNamespaceBody {t : TypeDecl} (formed : t.WellFormed)
    (spaced : t.space = "" ∨ IsQualified t.space) (laid : Laid src [] (t.printTop ++ text) ts) :
    ∃ rest, Laid src [] text rest ∧ Item.isMark .semicolon ts = false ∧
      (Item.isMark .semicolon rest = false → ∀ {parts : List Part} {after : List Item},
        Passes (readNamespaceBody src "" false rest) parts after →
          Passes (readNamespaceBody src "" false ts)
            (.declared (t.kept t.space) :: parts) after) := by
  rw [printTop] at laid
  rcases spaced with globally | spaced
  · rw [globally]
    have empty : t.space.isEmpty = true := by rw [globally]; rfl
    rw [if_pos empty] at laid
    obtain ⟨rest, laid, opens, read⟩ := formed.takes_readTopLevel laid
    refine ⟨rest, laid, opens.isMark (by decide), fun ends parts after more => ?_⟩
    exact passes_readNamespaceBody_declared opens (read ends) more
  · have some : ¬ t.space.isEmpty = true := by
      intro empty
      obtain ⟨c, _, head, -⟩ := spaced.isTidy
      rw [String.isEmpty_iff.mp empty] at head
      cases head
    have chars : ("namespace ".toList ++ (t.space.toList ++ " \x7b\n".toList ++
        (t.print ++ ['\x7d', '\n']))) ++ text = Keyword.namespaceKw.spelling.toList ++ ' ' ::
          (t.space.toList ++ ' ' :: '\x7b' :: '\n' :: (t.print ++ '\x7d' :: '\n' :: text)) := by
      simp [Keyword.spelling]
    rw [if_neg some, chars] at laid
    obtain ⟨k, us, rfl, keyword, -, laid⟩ := laid.keyword
    obtain ⟨vs, spans, spells, -⟩ := spaced.spells laid (endsWord_cons (by decide) _)
    obtain ⟨brace, inside, rfl, opens, -, spans⟩ :=
      spans.laid.space.mark (by decide) fun _ => rfl
    obtain ⟨ws, laid, first, read⟩ := formed.takes_readTopLevel spans.laid.newline
    obtain ⟨c, rest, rfl, closes, -, spans⟩ := laid.mark (by decide) fun _ => rfl
    have apart : ∀ m, m ≠ .openBrace → Item.isMark m (brace :: inside) = false :=
      fun m other => TypeSyntax.isMark_of_mark opens other.symm
    have qualified : qualify "" t.space = t.space := rfl
    refine ⟨rest, spans.laid.newline, by simp [Item.isMark, Item.token?, keyword],
      fun ends parts after more => ?_⟩
    have body : Passes (readNamespaceBody src (qualify "" t.space) true inside) _ rest :=
      passes_readNamespaceBody_declared first (read (TypeSyntax.isMark_of_mark closes (by decide)))
        (passes_readNamespaceBody_close closes ends)
    exact passes_readNamespaceBody_namespace keyword
      (takes_readQualifiedName spells (apart _ (by decide)) (apart _ (by decide))) opens body more

/-- The types of a file are read one after another. -/
theorem passes_readNamespaceBody_types {types : List TypeDecl}
    (spaces : ∀ t ∈ types, t.space = "" ∨ IsQualified t.space)
    (formed : ∀ t ∈ types, t.WellFormed) :
    ∀ {ts : List Item}, Laid src [] (types.flatMap (·.printTop)) ts →
      Item.isMark .semicolon ts = false ∧
      Passes (readNamespaceBody src "" false ts)
        (types.map fun t => .declared (t.kept t.space)) [] := by
  induction types with
  | nil =>
    intro ts laid
    rw [laid_nil laid]
    exact ⟨rfl, passes_readNamespaceBody_nil⟩
  | cons t others ih =>
    intro ts laid
    obtain ⟨rest, laid, first, read⟩ := (formed t List.mem_cons_self).passes_readNamespaceBody
      (spaces t List.mem_cons_self) laid
    obtain ⟨ends, more⟩ := ih (fun u hu => spaces u (List.mem_cons_of_mem t hu))
      (fun u hu => formed u (List.mem_cons_of_mem t hu)) laid
    exact ⟨first, read ends more⟩

theorem passes_readNamespaceBody_usings {usings : List String}
    (qualified : ∀ name ∈ usings, IsQualified name)
    (behind : ∀ {us : List Item}, Laid src [] text us →
      Passes (readNamespaceBody src "" false us) parts []) :
    ∀ {ts : List Item}, Laid src [] (usings.flatMap printUsing ++ text) ts →
      Passes (readNamespaceBody src "" false ts) (usings.map .imported ++ parts) [] := by
  induction usings with
  | nil => exact fun laid => behind laid
  | cons name others ih =>
    intro ts laid
    have chars : (name :: others).flatMap printUsing ++ text = Keyword.usingKw.spelling.toList ++
        ' ' :: (name.toList ++ ';' :: '\n' :: (others.flatMap printUsing ++ text)) := by
      simp [printUsing, Keyword.spelling]
    rw [chars] at laid
    obtain ⟨k, us, rfl, keyword, -, laid⟩ := laid.keyword
    obtain ⟨vs, spans, spells, -⟩ :=
      (qualified name List.mem_cons_self).spells laid (endsWord_cons (by decide) _)
    obtain ⟨semicolon, rest, rfl, ends, -, spans⟩ := spans.laid.mark (by decide) fun _ => rfl
    have more := ih (fun u hu => qualified u (List.mem_cons_of_mem name hu)) spans.laid.newline
    show Passes _ ([Part.imported name] ++ (others.map .imported ++ parts)) []
    exact passes_readNamespaceBody_using keyword (passes_readUsing spells ends) more

/-- What is read from the text of a file is what the text keeps of it. -/
theorem parse_print_eq_kept {f : File} (formed : f.WellFormed) :
    File.parse f.path f.print = .ok f.kept := by
  have laid : ∀ cs, f.print.toList = cs → Laid f.print.toList [] cs (Item.ofText f.print) := by
    rintro _ rfl
    exact laid_ofText f.print
  obtain ⟨_, read⟩ := passes_readNamespaceBody_usings formed.usings
    (fun types => (passes_readNamespaceBody_types formed.spaces formed.types types).2)
    (laid _ String.toList_ofList)
  have imported : (f.usings.map Part.imported ++
      f.types.map fun t => Part.declared (t.kept t.space)).filterMap Part.imported? = f.usings := by
    simp [List.filterMap_append, List.filterMap_map, Function.comp_def, Part.imported?]
  have declared : (f.usings.map Part.imported ++
      f.types.map fun t => Part.declared (t.kept t.space)).filterMap Part.declared? =
        f.types.map fun t => t.kept t.space := by
    simp [List.filterMap_append, List.filterMap_map, Function.comp_def, Part.declared?]
  rw [File.parse, read]
  simp only [imported, declared]
  rfl

/-- From the text of a well-formed file just what the text keeps is read: the enums without their
bases and nested types, the interfaces without their bodies, the members without what is not written
of them, and nested types in the namespace of the class. It is the same file exactly if there is
nothing to lose. -/
theorem parse_print {f : File} (formed : f.WellFormed) :
    File.parse f.path f.print = .ok f.kept ∧
      (File.parse f.path f.print = .ok f ↔ f.Canonical) := by
  have read := parse_print_eq_kept formed
  refine ⟨read, ?_⟩
  rw [read, Except.ok.injEq, File.kept_eq_iff formed.external]

theorem leadWellFormed_nil : LeadWellFormed none [] :=
  ⟨fun _ h => (nomatch h), fun _ h => nomatch h⟩

def choices : TypeDecl :=
  ⟨"E", "N.S", .enumKind, [], none,
    [⟨"V", "", some "-1 | A", none, []⟩, ⟨"W", "", none, none, []⟩], [], []⟩

def tagged : TypeDecl :=
  ⟨"C", "N.S", .classKind, ["X", "Y<Z>"], some "a & b\n<c>",
    [⟨"M", "List<int?[], (A.B, C)>", none, none,
      [⟨"K", [⟨none, "x\"y"⟩, ⟨some "P", ""⟩]⟩]⟩], [choices], []⟩

/-- A file with a namespace, a nested type, a summary and an attribute. -/
def sampled : File :=
  ⟨⟨"Test.cs"⟩, ["System", "A.B"],
    [tagged, ⟨"I", "", .interfaceKind, ["C"], none, [], [], []⟩], []⟩

theorem isTypeText_plain {name : String} (h : IsName name) : IsTypeText name :=
  ⟨.named name [], TypeSyntax.wellFormed_plain h, rfl⟩

theorem isTypeText_list : IsTypeText "List<int?[], (A.B, C)>" := by
  have nullable : (TypeSyntax.array (.nullable (.named "int" []))).WellFormed :=
    .array (.nullable (TypeSyntax.wellFormed_plain (by decide)) rfl)
  have pair : (TypeSyntax.tuple [.named "A.B" [], .named "C" []]).WellFormed :=
    .tuple (by simp) (.cons (.named (isQualified_pair "A" "B" rfl (by decide) (by decide)) .nil)
      (.cons (TypeSyntax.wellFormed_plain (by decide)) .nil))
  exact ⟨.named "List" [_, _], .named (.name (by decide)) (.cons nullable (.cons pair .nil)), by
    with_unfolding_all rfl⟩

theorem isExpression_sum : IsExpression "-1 | A" := by
  have tokens : (Item.ofText "-1 | A").map (·.token) =
      [.mark .minus, .number "1", .op '|', .ident "A"] := by
    with_unfolding_all rfl
  refine ⟨?_, by decide, by decide, by decide, '-', 'A', rfl, rfl, by decide, by decide⟩
  intro i hi
  have there : i.token ∈ [Token.mark .minus, .number "1", .op '|', .ident "A"] :=
    tokens ▸ List.mem_map_of_mem hi
  simp only [List.mem_cons, List.not_mem_nil, or_false] at there
  rcases there with token | token | token | token <;> rw [token] <;> trivial

theorem choices_wellFormed : choices.WellFormed := by
  refine .intro (by decide) (fun _ h => nomatch h) leadWellFormed_nil ?_ fun _ h => nomatch h
  simp only [choices, List.forall_mem_cons]
  exact ⟨⟨by decide, fun h => (nomatch h), by rintro _ ⟨⟩; exact isExpression_sum,
    leadWellFormed_nil⟩,
    ⟨by decide, fun h => (nomatch h), fun _ h => (nomatch h), leadWellFormed_nil⟩,
    fun _ h => nomatch h⟩

theorem tagged_wellFormed : tagged.WellFormed := by
  have lines : Summary.IsTidy "a & b\n<c>" := by
    have pieces : Text.pieces (· == '\n') "a & b\n<c>".toList =
        ["a & b".toList, "<c>".toList] := by
      decide
    rw [Summary.IsTidy, pieces]
    simp only [List.forall_mem_cons]
    exact ⟨⟨'a', 'b', rfl, rfl, by decide, by decide⟩,
      ⟨'<', '>', rfl, rfl, by decide, by decide⟩, List.forall_mem_nil _⟩
  have keyed : Attribute.WellFormed ⟨"K", [⟨none, "x\"y"⟩, ⟨some "P", ""⟩]⟩ := by
    refine ⟨.name (by decide), ?_⟩
    simp only [List.forall_mem_cons]
    exact ⟨by rintro _ ⟨⟩, by rintro _ ⟨⟩; decide, List.forall_mem_nil _⟩
  have generic : IsTypeText "Y<Z>" :=
    ⟨.named "Y" [.named "Z" []],
      .named (.name (by decide)) (.cons (TypeSyntax.wellFormed_plain (by decide)) .nil), by
      with_unfolding_all rfl⟩
  refine .intro (by decide) ?_ ⟨by rintro _ ⟨⟩; exact lines, List.forall_mem_nil _⟩ ?_ ?_
  · simp only [tagged, List.forall_mem_cons]
    exact ⟨isTypeText_plain (by decide), generic, List.forall_mem_nil _⟩
  · simp only [tagged, List.forall_mem_cons]
    refine ⟨⟨by decide, fun _ => isTypeText_list, by rintro _ ⟨⟩, by rintro _ ⟨⟩, ?_⟩,
      List.forall_mem_nil _⟩
    simpa using keyed
  · simpa [tagged] using choices_wellFormed

theorem sampled_canonical : sampled.Canonical := by
  have inner : choices.Canonical "N.S" := by
    refine .enumDecl rfl rfl rfl ?_ rfl
    simp [choices]
  have outer : tagged.Canonical "N.S" := by
    refine .classDecl rfl rfl (by simp [tagged]) ?_
    simpa [tagged] using inner
  intro t ht
  rcases List.mem_cons.mp ht with rfl | ht
  · exact outer
  · rw [List.mem_singleton.mp ht]
    exact .interfaceDecl rfl rfl rfl rfl

theorem parse_print_of_sampled : sampled.WellFormed ∧ sampled.Canonical ∧
    File.parse sampled.path sampled.print = .ok sampled := by
  have face : TypeDecl.WellFormed ⟨"I", "", .interfaceKind, ["C"], none, [], [], []⟩ := by
    refine .intro (by decide) ?_ leadWellFormed_nil (fun _ h => nomatch h) fun _ h => nomatch h
    simpa using isTypeText_plain (by decide)
  have formed : sampled.WellFormed := by
    refine ⟨?_, ?_, ?_, rfl⟩
    · simp only [sampled, List.forall_mem_cons]
      exact ⟨.name (by decide), isQualified_pair "A" "B" rfl (by decide) (by decide),
        fun _ h => nomatch h⟩
    · simp only [sampled, List.forall_mem_cons]
      exact ⟨.inr (isQualified_pair "N" "S" rfl (by decide) (by decide)), .inl trivial,
        fun _ h => nomatch h⟩
    · simp only [sampled, List.forall_mem_cons]
      exact ⟨tagged_wellFormed, face, fun _ h => nomatch h⟩
  exact ⟨formed, sampled_canonical, (parse_print formed).2.mpr sampled_canonical⟩

/-- An enum with a base. -/
def based : File :=
  ⟨⟨"Test.cs"⟩, [], [⟨"E", "", .enumKind, ["B"], none, [], [], []⟩], []⟩

theorem based_wellFormed : based.WellFormed := by
  have base : IsTypeText "B" := ⟨.named "B" [], .named (.name (by decide)) .nil, rfl⟩
  refine ⟨fun _ h => (nomatch h), by simp [based], ?_, rfl⟩
  intro t ht
  rw [List.mem_singleton.mp ht]
  exact .intro (by decide) (by simpa using base) leadWellFormed_nil (fun _ h => (nomatch h))
    fun _ h => nomatch h

/-- The base of an enum is written, but the enum is read without it. -/
theorem parse_print_of_based : based.WellFormed ∧
    based.print = "public enum E : B \x7b\n\x7d\n" ∧
      File.parse based.path based.print ≠ .ok based := by
  refine ⟨based_wellFormed, by with_unfolding_all rfl, ?_⟩
  have read : File.parse based.path based.print =
      .ok ⟨⟨"Test.cs"⟩, [], [⟨"E", "", .enumKind, [], none, [], [], []⟩], []⟩ := by
    with_unfolding_all rfl
  rw [read]
  intro same
  cases same

end Ambient.Host
