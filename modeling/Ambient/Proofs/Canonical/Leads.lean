import Ambient.Proofs.Canonical.Summaries
import Ambient.Proofs.Source.Members

/-!
# What stands before a declaration, read back

Documentation lines go to the first item behind them, which opens an attribute list or is the first
of the declaration. Each attribute has a list of its own, so the lists are read one after another up
to the declaration.
-/
namespace Ambient

/-- Documentation lines as they can stand behind three slashes. -/
structure IsDocLine (line : List Char) : Prop where
  first : line.head? ≠ some '/'
  one : '\n' ∉ line
  tidy : line.getLast? ≠ some '\r'

theorem Laid.docs {src text : List Char} {ts : List Item} {lines : List (List Char)}
    (proper : ∀ line ∈ lines, IsDocLine line) : ∀ {docs : List String},
    Laid src docs (Host.printDocs lines ++ text) ts →
      Laid src (docs ++ lines.map String.ofList) text ts := by
  induction lines with
  | nil =>
    intro docs laid
    rwa [List.map_nil, List.append_nil]
  | cons line more ih =>
    intro docs laid
    have chars : Host.printDocs (line :: more) ++ text =
        "///".toList ++ line ++ '\n' :: (Host.printDocs more ++ text) := by
      simp [Host.printDocs]
    rw [chars] at laid
    have here := proper line List.mem_cons_self
    have behind := ih (fun l hl => proper l (List.mem_cons_of_mem line hl))
      (laid.doc here.first here.one here.tidy)
    rwa [List.append_assoc, List.singleton_append] at behind

namespace Summary

theorem isDocLine_escape {line : List Char} (tidy : Text.IsTidy line) (one : '\n' ∉ line) :
    IsDocLine (' ' :: escape line) := by
  obtain ⟨_, d, _, last, _, solid⟩ := tidy
  obtain ⟨r, rfl⟩ := List.getLast?_eq_some_iff.mp last
  have parts : escape (r ++ [d]) = escape r ++ escapeChar d := by
    simp [escape]
  refine ⟨by simp, ?_, ?_⟩
  · intro feed
    rcases List.mem_cons.mp feed with same | feed
    · exact absurd same (by decide)
    · obtain ⟨c, there, found⟩ := List.mem_flatMap.mp feed
      rcases escapeChar_cases c with ⟨plain, -⟩ | entity
      · rw [plain] at found
        exact one (List.mem_singleton.mp found ▸ there)
      · have none : ∀ e ∈ entities, '\n' ∉ e := by decide
        exact none _ entity found
  · rw [parts, ← List.cons_append, List.getLast?_append]
    rcases escapeChar_cases d with ⟨plain, -⟩ | entity
    · rw [plain]
      intro same
      cases same
      exact absurd solid (by decide)
    · have semicolon : ∀ e ∈ entities, e.getLast? = some ';' := by decide
      rw [semicolon _ entity]
      intro same
      exact absurd (Option.some.inj same) (by decide)

theorem isDocLine_of_mem_docs {summary : Option String} (tidy : ∀ s ∈ summary, IsTidy s) :
    ∀ line ∈ docs summary, IsDocLine line := by
  cases summary with
  | none => exact fun line hl => by cases hl
  | some s =>
    intro line hl
    have tags : IsDocLine " <summary>".toList ∧ IsDocLine " </summary>".toList :=
      ⟨⟨by decide, by decide, by decide⟩, ⟨by decide, by decide, by decide⟩⟩
    rcases List.mem_append.mp hl with hl | hl
    · rcases List.mem_cons.mp hl with rfl | hl
      · exact tags.1
      · obtain ⟨l, there, rfl⟩ := List.mem_map.mp hl
        exact isDocLine_escape (tidy s rfl l there) fun feed =>
          absurd (Text.not_of_mem_pieces l there '\n' feed) (by decide)
    · rw [List.mem_singleton.mp hl]
      exact tags.2

end Summary

namespace Host
variable {src text : List Char} {ts rest after : List Item} {args : List Argument}
  {name : Option String} {value : String} {t u : Item}

theorem leaves_readArgumentName_keep (other : ∀ name, t.token ≠ .ident name) :
    Leaves (readArgumentName (t :: ts)) none (t :: ts) := by
  rw [readArgumentName]
  split
  · rename_i name token
    exact absurd token (other name)
  · exact ⟨_, rfl⟩

theorem leaves_readArgumentName {name : String} (named : t.token = .ident name)
    (equals : u.token = .mark .equals) :
    Leaves (readArgumentName (t :: u :: ts)) (some name) ts := by
  have found : isNameBefore [.equals, .colon] (t :: u :: ts) = true := by
    simp [isNameBefore, Item.ahead, Item.token?, named, equals]
  rw [readArgumentName, named]
  simp only [found, if_true]
  exact ⟨_, rfl⟩

theorem leaves_readArgumentValue (literal : t.token = .text value)
    (ends : u.token = .mark .comma ∨ u.token = .mark .closeParen) :
    Leaves (readArgumentValue src (t :: u :: ts)) value (u :: ts) := by
  have found : (Item.isMark .comma (u :: ts) || Item.isMark .closeParen (u :: ts)) = true := by
    rcases ends with ends | ends <;> simp [Item.isMark, Item.token?, ends]
  rw [readArgumentValue, literal]
  simp only [found, if_true]
  exact ⟨_, rfl⟩

/-- An argument is read up to its literal. -/
theorem exists_readArgumentName {docs : List String} {a : Argument} {ends : List Char}
    (laid : Laid src docs (a.print ++ ends) ts) (names : ∀ name ∈ a.name, IsName name)
    (apart : ends.head? ≠ some '"') : ∃ i more, i.token = .text a.value ∧
      Item.isMark .closeParen ts = false ∧ Leaves (readArgumentName ts) a.name (i :: more) ∧
      Laid src [] ends more := by
  obtain ⟨name, value⟩ := a
  cases name with
  | none =>
    obtain ⟨i, more, rfl, token, laid⟩ := laid.literal apart
    exact ⟨i, more, token, by simp [Item.isMark, Item.token?, token],
      leaves_readArgumentName_keep (by simp [token]), laid⟩
  | some name =>
    have chars : Argument.print ⟨some name, value⟩ ++ ends =
        name.toList ++ ' ' :: '=' :: ' ' :: ((literal value).toList ++ ends) := by
      simp [Argument.print]
    rw [chars] at laid
    obtain ⟨i, us, rfl, named, -, spans⟩ :=
      laid.name (names name rfl) (endsWord_cons (by decide) _)
    obtain ⟨e, vs, rfl, equals, -, spans⟩ := spans.laid.space.mark (by decide) fun _ => rfl
    obtain ⟨v, more, rfl, token, laid⟩ := spans.laid.space.literal apart
    exact ⟨v, more, token, by simp [Item.isMark, Item.token?, named],
      leaves_readArgumentName named equals, laid⟩

theorem takes_readArguments_last {us : List Item} (named : Leaves (readArgumentName ts) name us)
    (literal : Leaves (readArgumentValue src us) value (t :: rest))
    (closes : t.token = .mark .closeParen) :
    Takes (readArguments src ts) [⟨name, value⟩] rest := by
  obtain ⟨_, named⟩ := named
  obtain ⟨_, literal⟩ := literal
  rw [readArguments, named]
  simp only
  rw [literal]
  simp only [closes, if_true]
  exact ⟨_, rfl⟩

theorem takes_readArguments_more {us : List Item} (named : Leaves (readArgumentName ts) name us)
    (literal : Leaves (readArgumentValue src us) value (t :: rest))
    (comma : t.token = .mark .comma) (others : Takes (readArguments src rest) args after) :
    Takes (readArguments src ts) (⟨name, value⟩ :: args) after := by
  obtain ⟨_, named⟩ := named
  obtain ⟨_, literal⟩ := literal
  obtain ⟨_, again⟩ := others
  rw [readArguments, named]
  simp only
  rw [literal]
  simp only [comma, if_true, again]
  exact ⟨_, rfl⟩

/-- The arguments of an attribute through the closing parenthesis. -/
theorem takes_readArguments : (args : List Argument) → args ≠ [] →
    (∀ a ∈ args, ∀ name ∈ a.name, IsName name) →
    ∀ {docs : List String} {text : List Char}
      {ts : List Item}, Laid src docs (Argument.printAll args ++ text) ts →
      ∃ rest, Laid src [] text rest ∧ Item.isMark .closeParen ts = false ∧
        Takes (readArguments src ts) args rest
  | [], nonempty, _, _, _, _, _ => absurd rfl nonempty
  | [a], _, names, docs, text, ts, laid => by
    have chars : Argument.printAll [a] ++ text = a.print ++ ')' :: text := by
      simp [Argument.printAll]
    rw [chars] at laid
    obtain ⟨i, more, token, inside, named, laid⟩ :=
      exists_readArgumentName laid (names a List.mem_cons_self) (by simp)
    obtain ⟨t, rest, rfl, closes, -, spans⟩ := laid.mark (by decide) fun _ => rfl
    exact ⟨rest, spans.laid, inside, takes_readArguments_last named
      (leaves_readArgumentValue token (.inr closes)) closes⟩
  | a :: b :: others, _, names, docs, text, ts, laid => by
    have chars : Argument.printAll (a :: b :: others) ++ text =
        a.print ++ ',' :: ' ' :: (Argument.printAll (b :: others) ++ text) := by
      simp [Argument.printAll]
    rw [chars] at laid
    obtain ⟨i, more, token, inside, named, laid⟩ :=
      exists_readArgumentName laid (names a List.mem_cons_self) (by simp)
    obtain ⟨t, us, rfl, comma, -, spans⟩ := laid.mark (by decide) fun _ => rfl
    obtain ⟨rest, laid, -, read⟩ := takes_readArguments (b :: others) (by simp)
      (fun c hc => names c (List.mem_cons_of_mem a hc)) spans.laid.space
    exact ⟨rest, laid, inside, takes_readArguments_more named
      (leaves_readArgumentValue token (.inl comma)) comma read⟩

theorem passes_readArgumentList {docs : List String}
    (names : ∀ a ∈ args, ∀ name ∈ a.name, IsName name)
    (laid : Laid src docs ('(' :: (Argument.printAll args ++ text)) ts) :
    ∃ t q rest, ts = t :: q ∧ t.token = .mark .openParen ∧ Laid src [] text rest ∧
      Passes (readArgumentList src ts) args rest := by
  obtain ⟨t, us, rfl, opens, -, spans⟩ := laid.mark (by decide) fun _ => rfl
  refine ⟨t, us, ?_⟩
  cases args with
  | nil =>
    obtain ⟨u, rest, rfl, closes, -, spans⟩ := spans.laid.mark (by decide) fun _ => rfl
    have empty : Item.isMark .closeParen (u :: rest) = true := by
      simp [Item.isMark, Item.token?, closes]
    refine ⟨rest, rfl, opens, spans.laid, ?_⟩
    rw [readArgumentList, if_pos opens, empty]
    exact ⟨_, rfl⟩
  | cons a others =>
    obtain ⟨rest, laid, inside, _, read⟩ :=
      takes_readArguments (a :: others) (by simp) names spans.laid
    refine ⟨rest, rfl, opens, laid, ?_⟩
    rw [readArgumentList, if_pos opens, inside, read]
    exact ⟨_, rfl⟩

theorem takes_readAttributes_one {q : String} {us : List Item}
    (named : Takes (readQualifiedName ts) q us)
    (list : Passes (readArgumentList src us) args (t :: rest))
    (closes : t.token = .mark .closeBracket) :
    Takes (readAttributes src ts) [⟨q, args⟩] rest := by
  obtain ⟨_, named⟩ := named
  obtain ⟨_, list⟩ := list
  obtain ⟨_, closed⟩ : Takes (readMark .closeBracket (t :: rest)) () rest :=
    takes_readMark rfl closes
  have last : Item.isMark .comma (t :: rest) = false :=
    TypeSyntax.isMark_of_mark closes (by decide)
  rw [readAttributes, named]
  simp only [list, last, Bool.false_eq_true, if_false, closed]
  exact ⟨_, rfl⟩

theorem dropTarget_eq (h : Item.ahead 1 ts ≠ some (.mark .colon)) : dropTarget ts = ts := by
  have none : isNameBefore [.colon] ts = false := by
    unfold isNameBefore
    split
    · rename_i m _ found
      rw [List.contains_eq_mem, decide_eq_false_iff_not, List.mem_singleton]
      rintro rfl
      exact h found
    · rfl
  rw [dropTarget, none]
  rfl

theorem passes_readAttributeLists_list {attributes more : List Attribute}
    (opens : t.token = .mark .openBracket) (target : dropTarget ts = ts)
    (list : Takes (readAttributes src ts) attributes rest)
    (others : Passes (readAttributeLists src rest) more after) :
    Passes (readAttributeLists src (t :: ts)) (attributes ++ more) after := by
  rw [← target] at list
  obtain ⟨_, list⟩ := list
  obtain ⟨_, again⟩ := others
  rw [readAttributeLists, if_pos opens, list]
  simp only [again]
  exact ⟨_, rfl⟩

/-- The list of one attribute. -/
theorem passes_readAttributeLists_one {docs : List String} {a : Attribute} (formed : a.WellFormed)
    (laid : Laid src docs (a.print ++ text) ts) :
    ∃ rest, Laid src [] text rest ∧ Item.docsAt ts = docs ∧
      Item.token? ts = some (.mark .openBracket) ∧ Item.ahead 2 ts ≠ some (.mark .colon) ∧
      ∀ {more : List Attribute} {after : List Item},
        Passes (readAttributeLists src rest) more after →
          Passes (readAttributeLists src ts) (a :: more) after := by
  have chars : a.print ++ text =
      '[' :: (a.name.toList ++ '(' :: (Argument.printAll a.args ++ ']' :: '\n' :: text)) := by
    simp [Attribute.print]
  rw [chars] at laid
  obtain ⟨t, us, rfl, opens, known, spans⟩ := laid.mark (by decide) fun _ => rfl
  obtain ⟨vs, spans, spells, -⟩ := formed.name.spells spans.laid (endsWord_cons (by decide) _)
  obtain ⟨p, q, ws, rfl, paren, laid, list⟩ := passes_readArgumentList formed.args spans.laid
  obtain ⟨u, rest, rfl, closes, -, spans⟩ := laid.mark (by decide) fun _ => rfl
  have laid := spans.laid.newline
  have other : ∀ m, m ≠ .openParen → Item.isMark m (p :: q) = false :=
    fun m no => TypeSyntax.isMark_of_mark paren no.symm
  have colon : Item.ahead 1 us ≠ some (.mark .colon) :=
    spells.ahead_ne (by decide) (other _ (by decide))
  refine ⟨rest, laid, known, congrArg some opens, colon, fun {more after} lists => ?_⟩
  have single : Takes (readAttributes src us) [a] rest :=
    takes_readAttributes_one
      (takes_readQualifiedName spells (other _ (by decide)) (other _ (by decide))) list closes
  exact passes_readAttributeLists_list opens (dropTarget_eq colon) single lists

/-- The items begin with an attribute list that has no target. -/
def OpensList (ts : List Item) : Prop :=
  Item.token? ts = some (.mark .openBracket) ∧ Item.ahead 2 ts ≠ some (.mark .colon)

theorem passes_readAttributeLists {attributes : List Attribute}
    (formed : ∀ a ∈ attributes, a.WellFormed) : ∀ {docs : List String} {ts : List Item},
    Laid src docs (attributes.flatMap (·.print) ++ text) ts →
      (attributes = [] ∧ Laid src docs text ts) ∨
        (OpensList ts ∧ Item.docsAt ts = docs ∧ ∃ rest, Laid src [] text rest ∧
          (Item.isMark .openBracket rest = false →
            Passes (readAttributeLists src ts) attributes rest)) := by
  induction attributes with
  | nil => exact fun laid => .inl ⟨rfl, laid⟩
  | cons a others ih =>
    intro docs ts laid
    rw [List.flatMap_cons, List.append_assoc] at laid
    obtain ⟨us, laid, known, opens, colon, lists⟩ :=
      passes_readAttributeLists_one (formed a List.mem_cons_self) laid
    refine .inr ⟨⟨opens, colon⟩, known, ?_⟩
    rcases ih (fun b hb => formed b (List.mem_cons_of_mem a hb)) laid with
      ⟨rfl, laid⟩ | ⟨-, -, rest, laid, more⟩
    · exact ⟨us, laid, fun ends => lists (passes_readAttributeLists_keep ends)⟩
    · exact ⟨rest, laid, fun ends => lists (more ends)⟩

/-- Reading `text`, the first item has the documentation before it and opens no attribute list. -/
def Fronts (src text : List Char) : Prop :=
  ∀ docs ts, Laid src docs text ts →
    Item.docsAt ts = docs ∧ Item.isMark .openBracket ts = false

theorem passes_readLead_of {attributes : List Attribute} {docs : List String}
    (lists : Passes (readAttributeLists src ts) attributes rest) (known : Item.docsAt ts = docs)
    (behind : docs = [] → Item.docsAt rest = []) :
    Passes (readLead src ts) ⟨docs, attributes⟩ rest := by
  obtain ⟨passed, lists⟩ := lists
  refine ⟨passed, ?_⟩
  rw [readLead, lists]
  simp only [known]
  cases docs with
  | nil =>
    rw [behind rfl]
    rfl
  | cons line more => rfl

/-- The lead of a declaration: what it says is read, and the reader stands before
the declaration. -/
theorem passes_readLead {summary : Option String} {attributes : List Attribute}
    (formed : LeadWellFormed summary attributes) (fronts : Fronts src text)
    (laid : Laid src [] (printLead summary attributes ++ text) ts) :
    ∃ docs rest, Laid src docs text rest ∧ (OpensList ts ∨ ts = rest) ∧
      ∃ lead, Passes (readLead src ts) lead rest ∧ Summary.ofDocs lead.docs = summary ∧
        lead.attributes = attributes := by
  rw [printLead, List.append_assoc] at laid
  have behind := laid.docs (Summary.isDocLine_of_mem_docs formed.summary)
  have summarized := Summary.ofDocs_docs formed.summary
  rw [List.nil_append] at behind
  rcases passes_readAttributeLists formed.attributes behind with
    ⟨rfl, front⟩ | ⟨opens, known, rest, front, lists⟩
  · obtain ⟨known, ends⟩ := fronts _ _ front
    exact ⟨_, ts, front, .inr rfl, _,
      passes_readLead_of (passes_readAttributeLists_keep ends) known
      (known.trans ·), summarized, rfl⟩
  · obtain ⟨none, ends⟩ := fronts _ _ front
    exact ⟨_, rest, front, .inl opens, _, passes_readLead_of (lists ends) known fun _ => none,
      summarized, rfl⟩

end Host
end Ambient
