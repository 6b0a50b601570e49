import Ambient.Proofs.Source.Faults
import Ambient.Proofs.Source.Standing
import Ambient.Proofs.Source.Turns

/-!
# Every source is read to an end

Whatever the text, each loop of the reader takes an item or ends, the texts that are kept are cut
out between characters, and a fault lies at the start of an item or at the end of the text.
-/
namespace Ambient.Host
variable {text : String} {ts rest : List Item} {i : Item}

/-- The loops by which a source is read: namespaces, classes, enums, accessors, the parameters of
records, attributes, and what is passed over. -/
inductive FrontLoop (src : List Char) : {σ α : Type} → Loop σ α → Prop
  | namespaceBody (braced : Bool) : FrontLoop src (namespaceBody src braced)
  | classBody (typeName space : String) : FrontLoop src (classBody src typeName space)
  | fieldNames : FrontLoop src fieldNames
  | enumValues : FrontLoop src (enumValues src)
  | accessors : FrontLoop src (accessors src)
  | parameters : FrontLoop src (parameters src)
  | parameterModifiers : FrontLoop src parameterModifiers
  | attributeLists : FrontLoop src (attributeLists src)
  | attributes : FrontLoop src (attributes src)
  | arguments : FrontLoop src (arguments src)
  | groups (opening closing : Mark) : FrontLoop src (Skip.groups opening closing)
  | members : FrontLoop src Skip.members
  | expressions (generics : Bool) : FrontLoop src (Skip.expressions generics)

theorem FrontLoop.advances {σ α : Type} {src : List Char} {l : Loop σ α} (h : FrontLoop src l) :
    l.Advances := by
  cases h with
  | namespaceBody braced => exact advances_namespaceBody src braced
  | classBody typeName space => exact advances_classBody src typeName space
  | fieldNames => exact advances_fieldNames
  | enumValues => exact advances_enumValues src
  | accessors => exact advances_accessors src
  | parameters => exact advances_parameters src
  | parameterModifiers => exact advances_parameterModifiers
  | attributeLists => exact advances_attributeLists src
  | attributes => exact advances_attributes src
  | arguments => exact advances_arguments src
  | groups opening closing => exact Skip.advances_groups opening closing
  | members => exact Skip.advances_members
  | expressions generics => exact Skip.advances_expressions generics

/-- Where the first of the items starts, or the end of the text if there is none. -/
def startOf (text : String) (ts : List Item) : Nat := (Item.start? ts).getD text.utf8ByteSize

/-- Where the last of the items in front of `rest` ends, or where they would start
if there is none. -/
def stopOf (text : String) (ts rest : List Item) : Nat :=
  ((ts.take (ts.length - rest.length)).getLast?.map (·.stop)).getD (startOf text ts)

/-- An item spans some characters of the text. -/
theorem exists_of_mem_ofText (h : i ∈ Item.ofText text) : ∃ u w v, text.toList = u ++ w ++ v ∧
    i.start = Text.byteLength u ∧ i.stop = Text.byteLength (u ++ w) := by
  obtain ⟨u, a, w, v, _, whole, begins, ends, -⟩ := exists_of_mem_scan h
  exact ⟨u, a :: w, v, whole, by rw [begins, Nat.zero_add], by rw [ends, Nat.zero_add]⟩

theorem exists_startOf (part : ts <:+ Item.ofText text) :
    ∃ before after, text.toList = before ++ after ∧
      startOf text ts = Text.byteLength before := by
  cases ts with
  | nil =>
    exact ⟨text.toList, [], (List.append_nil _).symm, (byteLength_toList text).symm⟩
  | cons first more =>
    obtain ⟨u, w, v, whole, begins, -⟩ := exists_of_mem_ofText (part.subset List.mem_cons_self)
    exact ⟨u, w ++ v, by rw [whole, List.append_assoc], begins⟩

/-- An item starts before each item from it on ends. -/
theorem start_le_stop {first last : Item} {more : List Item}
    (part : first :: more <:+ Item.ofText text)
    (mem : last ∈ first :: more) : first.start ≤ last.stop := by
  have ordered : Item.Ordered 0 (Item.ofText text) := Item.ordered_scan []
  have spans := (ordered.1 first (part.subset List.mem_cons_self)).2
  have spans' := (ordered.1 last (part.subset mem)).2
  rcases List.mem_cons.mp mem with rfl | later
  · exact Nat.le_of_lt spans
  · have apart := List.rel_of_pairwise_cons (ordered.2.sublist part.sublist) later
    omega

/-- What is kept of items is the text from where they start to where they end, and it ends no
earlier than it starts. -/
theorem exists_kept (part : ts <:+ Item.ofText text) (left : rest <:+ ts) :
    ∃ before mid after, text.toList = before ++ mid ++ after ∧
      startOf text ts = Text.byteLength before ∧
      stopOf text ts rest = Text.byteLength (before ++ mid) ∧
      writtenText text.toList ts rest = String.ofList (Text.trim mid) := by
  obtain ⟨taken, rfl⟩ := left
  have take : (taken ++ rest).take ((taken ++ rest).length - rest.length) = taken := by
    rw [List.length_append, Nat.add_sub_cancel, List.take_left]
  obtain ⟨before, behind, whole, starts⟩ := exists_startOf part
  cases taken with
  | nil =>
    refine ⟨before, [], behind, by rw [List.append_nil, whole], starts, ?_, ?_⟩
    · rw [stopOf, take, starts, List.append_nil]
      rfl
    · rw [writtenText, take]
      rfl
  | cons first more =>
    have ends : (first :: more).getLast? = some ((first :: more).getLast (List.cons_ne_nil _ _)) :=
      List.getLast?_eq_some_getLast _
    generalize (first :: more).getLast (List.cons_ne_nil _ _) = last at ends
    have mem : last ∈ first :: more := List.mem_of_getLast? ends
    have le := start_le_stop part (List.mem_append_left rest mem)
    obtain ⟨u, w, v, whole', -, stops⟩ :=
      exists_of_mem_ofText (part.subset (List.mem_append_left rest mem))
    have begins : first.start = Text.byteLength before := starts
    obtain ⟨mid, same⟩ := Text.exists_append_of_byteLength_le (whole.symm.trans whole')
      (by rw [← begins, ← stops]; exact le)
    rw [same] at whole' stops
    refine ⟨before, mid, v, whole', starts, ?_, ?_⟩
    · rw [stopOf, take, ends]
      exact stops
    · simp only [writtenText, take, ends, List.head?_cons]
      rw [begins, stops, whole', Text.slice_append]

/-- Every text is read to an end, whether it is accepted or not. Each turn of a loop fails, or
ends the loop, or leaves fewer items to go on with, the last ones of those it started with. So a
loop takes at most one turn more than there are items in front of it, and the loop through the
whole text is one of them. What is kept of the text is cut out at places between its characters,
and ends no earlier than it starts. A text that is not accepted has its fault where one of its
items starts, or at its end. -/
theorem parse_advances (path : Path) (text : String) :
    (∀ {σ α : Type} (l : Loop σ α), FrontLoop text.toList l → l.Advances ∧
      ∀ s n, (l.items s).length < n → l.run n s = some (l.read s)) ∧
    (∃ result, (namespaceBody text.toList false).run ((Item.ofText text).length + 1)
        ("", Item.ofText text) = some result ∧
      File.parse path text = result.map fun parts =>
        ⟨path, parts.1.filterMap Part.imported?, parts.1.filterMap Part.declared?, []⟩) ∧
    (∀ ts rest, ts <:+ Item.ofText text → rest <:+ ts → ∃ before mid after,
      text = before ++ mid ++ after ∧ startOf text ts = before.utf8ByteSize ∧
      stopOf text ts rest = (before ++ mid).utf8ByteSize ∧
      writtenText text.toList ts rest = String.ofList (Text.trim mid.toList)) ∧
    ∀ fault, File.parse path text = .error fault →
    IsBoundary text (fault.pos text.utf8ByteSize) ∧
      ((∃ i ∈ Item.ofText text, fault.pos text.utf8ByteSize = i.start) ∨
        fault.pos text.utf8ByteSize = text.utf8ByteSize) := by
  refine ⟨fun l front => ⟨front.advances, fun s n => front.advances.run_eq⟩, ?whole,
    ?kept, ?fault⟩
  case whole =>
    refine ⟨_, (advances_namespaceBody text.toList false).run_eq (Nat.lt_succ_self _), ?_⟩
    show File.parse path text = (remainder (readNamespaceBody _ _ _ _)).map _
    rw [File.parse]
    cases readNamespaceBody text.toList "" false (Item.ofText text) <;> rfl
  case kept =>
    intro ts rest part left
    obtain ⟨before, mid, after, whole, starts, stops, kept⟩ := exists_kept part left
    refine ⟨String.ofList before, String.ofList mid, String.ofList after, ?_, ?_, ?_, ?_⟩
    · rw [← String.ofList_append, ← String.ofList_append, ← whole, String.ofList_toList]
    · rw [starts, utf8ByteSize_ofList]
    · rw [stops, ← String.ofList_append, utf8ByteSize_ofList]
    · rw [kept, String.toList_ofList]
  case fault =>
    intro fault failed
    obtain ⟨us, part, start⟩ := within_of_parse failed
    have place : fault.pos text.utf8ByteSize = startOf text us := by
      rw [SyntaxFault.pos, start, startOf]
    rw [place]
    obtain ⟨before, after, whole, starts⟩ := exists_startOf part
    refine ⟨starts ▸ isBoundary_of_append whole, ?_⟩
    cases us with
    | nil => exact .inr rfl
    | cons i more => exact .inl ⟨i, part.subset List.mem_cons_self, rfl⟩

end Ambient.Host
