import Ambient.Host.MemberReader
import Ambient.Proofs.Source.Cuts
import Ambient.Proofs.Source.Laid
import Ambient.Proofs.Source.Names

/-!
# Types read back

A type is written with its arguments between angle brackets, a question mark or a rank behind it, or
as a tuple in parentheses. What is written of a type is read as this type again.

A qualified name is laid out as one item for each segment and each dot. Readers of such names take
the segments one after another, up to whatever follows other than a dot.
-/
namespace Ambient

/-- Names with a dot between each and the next. -/
inductive IsQualified : String → Prop
  | name {name : String} : IsName name → IsQualified name
  | snoc {outer name : String} : IsQualified outer → IsName name →
    IsQualified (outer ++ "." ++ name)

theorem isQualified_pair {whole : String} (outer name : String)
    (spelled : outer ++ "." ++ name = whole)
    (h : IsName outer) (h' : IsName name) : IsQualified whole :=
  spelled ▸ .snoc (.name h) h'

/-- The items `ts` spell a qualified name before `rest`. -/
inductive Spells : String → List Item → List Item → Prop
  | name {i : Item} {name : String} {rest : List Item} : i.token = .ident name →
    Spells name (i :: rest) rest
  | snoc {outer name : String} {ts rest : List Item} {d i : Item} :
    Spells outer ts (d :: i :: rest) →
    d.token = .mark .dot → i.token = .ident name → Spells (outer ++ "." ++ name) ts rest

theorem IsQualified.spells {name : String} (h : IsQualified name) {src : List Char}
    {docs : List String} :
    ∀ {text : List Char} {ts : List Item}, Laid src docs (name.toList ++ text) ts →
    EndsWord text → ∃ rest, Spans src name.toList text ts rest ∧ Spells name ts rest ∧
        ∃ i q, ts = i :: q ∧ i.docs = docs := by
  induction h with
  | name plain =>
    intro text ts laid ends
    obtain ⟨i, rest, rfl, token, known, spans⟩ := laid.name plain ends
    exact ⟨rest, spans, .name token, i, rest, rfl, known⟩
  | @snoc outer name _ plain ih =>
    intro text ts laid ends
    have chars : (outer ++ "." ++ name).toList ++ text =
        outer.toList ++ ('.' :: (name.toList ++ text)) := by
      simp
    rw [chars] at laid
    obtain ⟨us, spans, spells, first⟩ := ih laid (endsWord_cons (by decide) _)
    obtain ⟨d, vs, rfl, dot, -, spans'⟩ := spans.laid.mark (by decide) fun _ => rfl
    obtain ⟨i, rest, rfl, token, -, spans''⟩ := spans'.laid.name plain ends
    refine ⟨rest, ?_, .snoc spells dot token, first⟩
    have segment : Spans src ('.' :: name.toList) text (d :: i :: rest) rest := spans'.trans spans''
    simpa using spans.trans segment

namespace Spells
variable {name : String} {ts rest : List Item}

theorem head (h : Spells name ts rest) : ∃ i q first, ts = i :: q ∧ i.token = .ident first := by
  induction h with
  | name token => exact ⟨_, _, _, rfl, token⟩
  | snoc _ _ _ ih => exact ih

/-- Behind the first segment comes a dot or what follows the name. -/
theorem ahead_ne (h : Spells name ts rest) {m : Mark} (other : m ≠ .dot)
    (no : Item.isMark m rest = false) : Item.ahead 1 ts ≠ some (.mark m) := by
  induction h with
  | name token => simpa [Item.ahead, Item.isMark] using no
  | snoc _ dot _ ih =>
    refine ih ?_
    simpa [Item.isMark, Item.token?, dot] using other.symm

theorem dropGlobal_eq (h : Spells name ts rest) (no : Item.isMark .doubleColon rest = false) :
    dropGlobal ts = ts := by
  have none : isGlobalQualifier ts = false := by
    simp only [isGlobalQualifier, Bool.and_eq_false_imp, beq_eq_false_iff_ne]
    exact fun _ => h.ahead_ne (by decide) no
  rw [dropGlobal, none]
  rfl

end Spells

namespace Host
variable {ts rest : List Item}

theorem passes_readDotted_keep {name : String} (h : Item.isMark .dot ts = false) :
    Passes (readDotted name ts) name ts := by
  refine ⟨short_self ts, ?_⟩
  cases ts with
  | nil =>
    rw [readDotted]
    rfl
  | cons t r =>
    have no : t.token ≠ .mark .dot := by
      intro dot
      simp [Item.isMark, Item.token?, dot] at h
    rw [readDotted, if_neg no]
    rfl

theorem passes_readDotted_dot {i : Item} {name segment value : String} {after : List Item}
    (dot : i.token = .mark .dot) (named : Takes (readName ts) segment rest)
    (more : Passes (readDotted (name ++ "." ++ segment) rest) value after) :
    Passes (readDotted name (i :: ts)) value after := by
  obtain ⟨_, read⟩ := named
  obtain ⟨_, again⟩ := more
  rw [readDotted, if_pos dot]
  simp only [read, again]
  exact ⟨_, rfl⟩

/-- After the first segments of a name the reader goes on as if they were one. -/
theorem readQualifiedName_upto {name : String} (h : Spells name ts rest)
    (no : Item.isMark .doubleColon rest = false) {value : String} {after : List Item}
    (more : Passes (readDotted name rest) value after) :
    Takes (readQualifiedName ts) value after := by
  induction h with
  | name token =>
    obtain ⟨_, read⟩ := takes_readName ((Spells.name token).dropGlobal_eq no) token
    obtain ⟨_, again⟩ := more
    simp only [readQualifiedName, read, again]
    exact ⟨_, rfl⟩
  | snoc _ dot token ih =>
    refine ih ?_ (passes_readDotted_dot dot (takes_readName rfl token) more)
    simp [Item.isMark, Item.token?, dot]

theorem takes_readQualifiedName {name : String} (h : Spells name ts rest)
    (dot : Item.isMark .dot rest = false) (double : Item.isMark .doubleColon rest = false) :
    Takes (readQualifiedName ts) name rest :=
  readQualifiedName_upto h double (passes_readDotted_keep dot)

end Host

theorem IsWord.isTidy {name : String} (h : IsWord name) : Text.IsTidy name.toList := by
  have solid : ∀ c ∈ name.toList, Text.isBlank c = false :=
    fun c hc => (Lexeme.isSolid_of_part (h.isWordPart c hc)).2.1
  obtain ⟨c, r, spelled, -⟩ := h
  rw [spelled] at solid ⊢
  have last := List.getLast?_eq_some_getLast (List.cons_ne_nil c r)
  exact ⟨c, _, rfl, last, solid c List.mem_cons_self, solid _ (List.getLast_mem _)⟩

theorem IsQualified.isTidy {name : String} (h : IsQualified name) : Text.IsTidy name.toList := by
  induction h with
  | name plain => exact plain.1.isTidy
  | snoc _ plain ih =>
    have dot : Text.IsTidy ['.'] := ⟨'.', '.', rfl, rfl, by decide, by decide⟩
    simpa using (ih.append dot).append plain.1.isTidy

namespace TypeSyntax

mutual
/-- Types that can be written: names are qualified names, a question mark does not follow another,
and a tuple has elements. -/
inductive WellFormed : TypeSyntax → Prop
  | named {name : String} {args : List TypeSyntax} : IsQualified name → AllWellFormed args →
    WellFormed (named name args)
  | array {element : TypeSyntax} : WellFormed element → WellFormed (array element)
  | nullable {inner : TypeSyntax} : WellFormed inner → inner.isNullable = false →
    WellFormed (nullable inner)
  | tuple {items : List TypeSyntax} : items ≠ [] → AllWellFormed items →
    WellFormed (tuple items)

inductive AllWellFormed : List TypeSyntax → Prop
  | nil : AllWellFormed []
  | cons {first : TypeSyntax} {others : List TypeSyntax} : WellFormed first →
    AllWellFormed others → AllWellFormed (first :: others)
end

theorem wellFormed_plain {name : String} (h : IsName name) : WellFormed (named name []) :=
  .named (.name h) .nil

theorem readNamed_upto {name : String} {ts rest after : List Item} {value : TypeSyntax}
    (h : Spells name ts rest) (double : Item.isMark .doubleColon rest = false)
    (more : Passes (readSegments name [] rest) value after) : Takes (readNamed ts) value after := by
  induction h with
  | name token =>
    exact takes_readNamed ((Spells.name token).dropGlobal_eq double) (by rw [token, nameOf?]) more
  | snoc _ dot token ih =>
    refine ih ?_ (passes_readSegments_dot dot token more)
    simp [Item.isMark, Item.token?, dot]

/-- The items `ts` are some types with a comma between each and the next, a closing mark, and then
`rest`. -/
inductive Listed (closing : Mark) : List TypeSyntax → List Item → List Item → Prop
  | last {ty : TypeSyntax} {t : Item} {ts rest : List Item} : Takes (read ts) ty (t :: rest) →
    t.token = .mark closing → Listed closing [ty] ts rest
  | more {ty : TypeSyntax} {others : List TypeSyntax} {t : Item} {ts us rest : List Item} :
    Takes (read ts) ty (t :: us) → t.token = .mark .comma → Listed closing others us rest →
    Listed closing (ty :: others) ts rest

namespace Listed
variable {items : List TypeSyntax} {ts rest : List Item}

theorem takes {f : ListForm} {more : (us : List Item) → Read (Step (List TypeSyntax) us)}
    (reads : f.ReadBy more)
    (keeps : ∀ {t : Item} {us : List Item} {m : Mark},
      t.token = .mark m → f.drop (t :: us) = t :: us)
    (h : Listed f.close items ts rest) : Takes (more ts) items rest := by
  induction h with
  | last first closes => exact reads.takes_last first (keeps closes) closes
  | more first comma _ ih => exact reads.takes_more first (keeps comma) comma ih

theorem takes_readArguments (h : Listed .closeAngle items ts rest) :
    Takes (readArguments ts) items rest :=
  h.takes ListForm.arguments_readBy fun _ => rfl

theorem takes_readTuple (h : Listed .closeParen items ts rest) :
    Takes (readTuple ts) items rest :=
  h.takes ListForm.elements_readBy dropElementName_mark

end Listed

/-- A type starts with a parenthesis or a name. No parenthesis follows right behind the name, unless
one stands behind the type. -/
def StartsType (docs : List String) (ts rest : List Item) : Prop :=
  Item.docsAt ts = docs ∧ (Item.token? ts = some (.mark .openParen) ∨
    (∃ name, Item.token? ts = some (.ident name)) ∧
      (Item.isMark .openParen rest = false → Item.ahead 1 ts ≠ some (.mark .openParen)))

/-- The character is read as the mark, which ends what stands before it. -/
structure Closes (c : Char) (m : Mark) : Prop where
  solid : Lexeme.IsSolid c
  apart : Lexeme.isWordPart c = false
  reads : ∀ fresh text, Lexeme.read fresh c text = Lexeme.markPiece m text
  ends : m ∉ [Mark.dot, .doubleColon, .openAngle, .question, .star, .openBracket]

theorem closes_angle : Closes '>' .closeAngle :=
  ⟨by decide, by decide, fun _ _ => rfl, by decide⟩

theorem closes_paren : Closes ')' .closeParen :=
  ⟨by decide, by decide, fun _ _ => rfl, by decide⟩

/-- Types with commas between them, and the character that closes the list. -/
def listing (items : List TypeSyntax) (c : Char) : List Char :=
  (", ".intercalate (displays items)).toList ++ [c]

theorem listing_singleton (ty : TypeSyntax) (c : Char) :
    listing [ty] c = ty.display.toList ++ [c] := by
  simp [listing, displays]

theorem listing_cons_cons (ty next : TypeSyntax) (others : List TypeSyntax) (c : Char) :
    listing (ty :: next :: others) c =
      ty.display.toList ++ ',' :: ' ' :: listing (next :: others) c := by
  simp [listing, displays, String.intercalate_cons_cons]

theorem StartsType.suffix {docs : List String} {ts rest after : List Item}
    (h : StartsType docs ts rest) (other : Item.isMark .openParen rest = false) :
    StartsType docs ts after :=
  ⟨h.1, h.2.imp_right fun ⟨spelled, ahead⟩ => ⟨spelled, fun _ => ahead other⟩⟩

variable {src : List Char}

mutual
/-- The items of a type come first, and the suffixes behind it are read with it. -/
theorem WellFormed.read_upto : (ty : TypeSyntax) → WellFormed ty → ∀ {docs : List String}
    {text : List Char} {ts : List Item}, Laid src docs (ty.display.toList ++ text) ts →
    EndsWord text → ∃ rest, Spans src ty.display.toList text ts rest ∧
    StartsType docs ts rest ∧ (EndsName rest → ∀ {value : TypeSyntax} {after : List Item},
        Passes (readSuffixes ty rest) value after → Takes (read ts) value after)
  | .named name args, h, docs, text, ts, laid, ends => by
    cases h with
    | named qualified arguments =>
    cases args with
    | nil =>
      obtain ⟨rest, spans, spells, i, q, rfl, known⟩ := qualified.spells laid ends
      obtain ⟨j, _, first, same, token⟩ := spells.head
      cases same
      refine ⟨rest, spans,
        ⟨known, .inr ⟨⟨first, congrArg Option.some token⟩, spells.ahead_ne (by decide)⟩⟩, ?_⟩
      intro ended value after suffixes
      have double : Item.isMark .doubleColon rest = false := ended _ (by decide)
      refine takes_read_named (by simp [token]) (readNamed_upto spells double ?_) suffixes
      exact passes_readSegments_end (passes_readArguments?_keep (ended _ (by decide)))
        (ended _ (by decide)) double
    | cons first others =>
      have shown : (display (.named name (first :: others))).toList =
          name.toList ++ '<' :: listing (first :: others) '>' := by
        simp [display, listing]
      rw [shown] at laid ⊢
      rw [List.append_assoc] at laid
      obtain ⟨us, spans, spells, i, q, rfl, known⟩ :=
        qualified.spells laid (endsWord_cons (by decide) _)
      obtain ⟨opens, vs, rfl, opening, -, spans'⟩ := spans.laid.mark (by decide) fun _ => rfl
      obtain ⟨rest, spans'', listed⟩ :=
        arguments.listed (first :: others) (by simp) closes_angle spans'.laid
      obtain ⟨j, _, segment, same, token⟩ := spells.head
      cases same
      refine ⟨rest, spans.trans (spans'.trans spans''),
        ⟨known, .inr ⟨⟨segment, congrArg some token⟩,
        fun _ => spells.ahead_ne (by decide) (isMark_of_mark opening (by decide))⟩⟩, ?_⟩
      intro ended value after suffixes
      refine takes_read_named (by simp [token])
        (readNamed_upto spells (isMark_of_mark opening (by decide)) ?_) suffixes
      exact passes_readSegments_end (passes_readArguments?_open opening listed.takes_readArguments)
        (ended _ (by decide)) (ended _ (by decide))
  | .array element, h, docs, text, ts, laid, ends => by
    cases h with
    | array formed =>
    have shown : (display (.array element)).toList = element.display.toList ++ ['[', ']'] := by
      simp [display]
    rw [shown] at laid ⊢
    rw [List.append_assoc] at laid
    obtain ⟨us, spans, starts, more⟩ :=
      formed.read_upto element laid (endsWord_cons (by decide) _)
    obtain ⟨opens, vs, rfl, opening, -, spans'⟩ := spans.laid.mark (by decide) fun _ => rfl
    obtain ⟨closes, rest, rfl, closing, -, spans''⟩ := spans'.laid.mark (by decide) fun _ => rfl
    refine ⟨rest, spans.trans (spans'.trans spans''),
      starts.suffix (isMark_of_mark opening (by decide)), ?_⟩
    intro _ value after suffixes
    exact more (endsName_mark _ opening (by decide))
      (passes_readSuffixes_rank opening closing suffixes)
  | .nullable inner, h, docs, text, ts, laid, ends => by
    cases h with
    | nullable formed single =>
    have shown : (display (.nullable inner)).toList = inner.display.toList ++ ['?'] := by
      simp [display]
    rw [shown] at laid ⊢
    rw [List.append_assoc] at laid
    obtain ⟨us, spans, starts, more⟩ :=
      formed.read_upto inner laid (endsWord_cons (by decide) _)
    obtain ⟨question, rest, rfl, asked, -, spans'⟩ := spans.laid.mark (by decide) fun _ => rfl
    refine ⟨rest, spans.trans spans', starts.suffix (isMark_of_mark asked (by decide)), ?_⟩
    intro _ value after suffixes
    exact more (endsName_mark _ asked (by decide))
      (passes_readSuffixes_question asked single suffixes)
  | .tuple items, h, docs, text, ts, laid, ends => by
    cases h with
    | tuple nonempty formed =>
    have shown : (display (.tuple items)).toList =
        '(' :: listing items ')' := by
      simp [display, listing]
    rw [shown] at laid ⊢
    obtain ⟨opens, us, rfl, opening, known, spans⟩ := laid.mark (by decide) fun _ => rfl
    obtain ⟨rest, spans', listed⟩ := formed.listed items nonempty closes_paren spans.laid
    refine ⟨rest, spans.trans spans', ⟨known, .inl (congrArg some opening)⟩, ?_⟩
    intro _ value after suffixes
    exact takes_read_tuple opening listed.takes_readTuple suffixes

theorem AllWellFormed.listed :
    (items : List TypeSyntax) → AllWellFormed items → items ≠ [] →
    ∀ {c : Char} {closing : Mark}, Closes c closing →
    ∀ {docs : List String} {text : List Char}
      {ts : List Item}, Laid src docs (listing items c ++ text) ts →
      ∃ rest, Spans src (listing items c) text ts rest ∧ Listed closing items ts rest
  | [], _, nonempty, _, _, _, _, _, _, _ => absurd rfl nonempty
  | [ty], h, _, c, closing, closes, docs, text, ts, laid => by
    cases h with
    | cons formed _ =>
    rw [listing_singleton] at laid ⊢
    rw [List.append_assoc] at laid
    obtain ⟨us, spans, -, more⟩ := formed.read_upto ty laid (endsWord_cons closes.apart _)
    obtain ⟨t, rest, rfl, closing, -, spans'⟩ :=
      spans.laid.mark closes.solid (closes.reads · text)
    have ended := endsType_mark rest closing closes.ends
    exact ⟨rest, spans.trans spans', .last (more ended.1 ended.passes_readSuffixes) closing⟩
  | ty :: next :: others, h, _, c, closing, closes, docs, text, ts, laid => by
    cases h with
    | cons formed later =>
    rw [listing_cons_cons] at laid ⊢
    rw [List.append_assoc] at laid
    obtain ⟨us, spans, -, more⟩ := formed.read_upto ty laid (endsWord_cons (by decide) _)
    obtain ⟨t, vs, rfl, comma, -, spans'⟩ := spans.laid.mark (by decide) fun _ => rfl
    obtain ⟨rest, spans'', listed⟩ :=
      later.listed (next :: others) (by simp) closes spans'.laid.space
    have ended := endsType_mark vs comma (by decide)
    have behind : Spans src (',' :: ' ' :: listing (next :: others) c) text (t :: vs) rest :=
      @Spans.append src [','] [' '] _ _ _ _ _ spans' spans''
    exact ⟨rest, spans.trans behind,
      .more (more ended.1 ended.passes_readSuffixes) comma listed⟩
end

theorem WellFormed.isTidy : (ty : TypeSyntax) → WellFormed ty → Text.IsTidy ty.display.toList
  | .named name args, h => by
    cases h with
    | named qualified _ =>
    cases args with
    | nil => exact qualified.isTidy
    | cons first others =>
      have arguments : Text.IsTidy ('<' :: listing (first :: others) '>') :=
        Text.isTidy_between (by decide) _ (by decide)
      simpa [display, listing] using qualified.isTidy.append arguments
  | .array element, h => by
    cases h with
    | array formed =>
    have rank : Text.IsTidy ['[', ']'] := Text.isTidy_between (by decide) [] (by decide)
    simpa [display] using (formed.isTidy element).append rank
  | .nullable inner, h => by
    cases h with
    | nullable formed _ =>
    have question : Text.IsTidy ['?'] := ⟨'?', '?', rfl, rfl, by decide, by decide⟩
    simpa [display] using (formed.isTidy inner).append question
  | .tuple items, _ => by
    have elements : Text.IsTidy ('(' :: listing items ')') :=
      Text.isTidy_between (by decide) _ (by decide)
    simpa [display, listing] using elements

/-- What is displayed of a type reads back as this type. -/
theorem parse_display {ty : TypeSyntax} (formed : ty.WellFormed) : parse ty.display = .ok ty := by
  have laid : Laid ty.display.toList [] (ty.display.toList ++ []) (Item.ofText ty.display) := by
    rw [List.append_nil]
    exact laid_ofText ty.display
  obtain ⟨rest, spans, -, read⟩ := formed.read_upto ty laid nofun
  -- the type is the whole text, so nothing behind it can carry it on
  obtain rfl : rest = [] := laid_nil spans.laid
  have ends : EndsType [] := ⟨fun _ _ => rfl, fun _ _ => rfl⟩
  obtain ⟨_, read⟩ := read ends.1 ends.passes_readSuffixes
  rw [parse, read]

/-- Closing angles in a row, ranks, and tuples among the arguments and behind a question mark. -/
def nestedArguments : TypeSyntax :=
  array (nullable (named "System.Lazy"
    [tuple [named "int" [], array (array (nullable (named "a" [])))],
      named "List" [named "Map" [named "string" [], nullable (tuple [named "b" []])]]]))

theorem wellFormed_nestedArguments : nestedArguments.WellFormed := by
  have plain (name : String) (h : IsName name) : WellFormed (named name []) := wellFormed_plain h
  have ranks : WellFormed (array (array (nullable (named "a" [])))) :=
    .array (.array (.nullable (plain "a" (by decide)) rfl))
  have pair : WellFormed (tuple [named "int" [], array (array (nullable (named "a" [])))]) :=
    .tuple (by simp) (.cons (plain "int" (by decide)) (.cons ranks .nil))
  have single : WellFormed (nullable (tuple [named "b" []])) :=
    .nullable (.tuple (by simp) (.cons (plain "b" (by decide)) .nil)) rfl
  have map : WellFormed (named "Map" [named "string" [], nullable (tuple [named "b" []])]) :=
    .named (.name (by decide)) (.cons (plain "string" (by decide)) (.cons single .nil))
  have outer : IsQualified "System.Lazy" :=
    isQualified_pair "System" "Lazy" rfl (by decide) (by decide)
  exact .array (.nullable
    (.named outer (.cons pair (.cons (.named (.name (by decide)) (.cons map .nil)) .nil))) rfl)

theorem parse_display_of_nestedArguments : nestedArguments.WellFormed ∧
    nestedArguments.display = "System.Lazy<(int, a?[][]), List<Map<string, (b)?>>>?[]" ∧
    parse "System.Lazy<(int, a?[][]), List<Map<string, (b)?>>>?[]" = .ok nestedArguments := by
  have shown : nestedArguments.display =
      "System.Lazy<(int, a?[][]), List<Map<string, (b)?>>>?[]" := by
    decide
  exact ⟨wellFormed_nestedArguments, shown, shown ▸ parse_display wellFormed_nestedArguments⟩

end TypeSyntax

namespace Host

/-- The text of a type is kept, and the reader stands behind it. -/
theorem takes_readWrittenType {src text : List Char} {docs : List String} {ts : List Item}
    {ty : TypeSyntax} (formed : ty.WellFormed) (laid : Laid src docs (ty.display.toList ++ text) ts)
    (ends : EndsWord text) : ∃ rest, Laid src [] text rest ∧
      TypeSyntax.StartsType docs ts rest ∧
      (TypeSyntax.EndsType rest → Takes (readWrittenType src ts) ty.display rest) := by
  obtain ⟨rest, spans, starts, read⟩ := formed.read_upto ty laid ends
  refine ⟨rest, spans.laid, starts, fun ended => ?_⟩
  obtain ⟨_, read⟩ := read ended.1 ended.passes_readSuffixes
  rw [takes_iff, readWrittenType, read]
  show Except.ok (writtenText src ts rest, rest) = _
  rw [writtenText_of_spans laid spans (formed.isTidy ty).trim_eq, String.ofList_toList]

end Host
end Ambient
