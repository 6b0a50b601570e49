import Ambient.Proofs.Formatting.Respelling
import Ambient.Proofs.Source.Numbers
import Ambient.Proofs.Source.Grammar

/-!
# Literals told from other texts

An argument of an attribute is kept decoded if it is one string literal, and as it is written
otherwise. To tell the two apart, the reader is given the items of a text with a blank put before
the value of each string literal: a text that is cut out of the source has no blank in front. Such a
file differs from the real one in these blanks only, and the files of two texts with the same tokens
differ in the spelling of types, and in arguments and initializers that are no literals.
-/
namespace Ambient

open Host

def flag (value : String) : String := " " ++ value

/-- The value of a string literal, not a text that was cut out of the source. -/
def IsFlagged (value : String) : Prop := value.toList.head? = some ' '

instance (value : String) : Decidable (IsFlagged value) := inferInstanceAs (Decidable (_ = _))

def unflag (value : String) : String :=
  if IsFlagged value then String.ofList value.toList.tail else value

theorem unflag_flag (value : String) : unflag (flag value) = value := by
  have chars : (flag value).toList = ' ' :: value.toList := by
    rw [flag, String.toList_append]
    rfl
  rw [unflag, if_pos (by rw [IsFlagged, chars]; rfl), chars, List.tail_cons, String.ofList_toList]

def Item.retext (f : String → String) (i : Item) : Item := { i with token := i.token.retext f }

/-- The items of a text, string literals flagged. -/
def Item.flaggedOf (text : String) : List Item := (Item.ofText text).map (Item.retext flag)

/-- The file of a source with its string literals flagged. -/
def Host.File.parseFlagged (path : Path) (text : String) : Read File :=
  (readNamespaceBody text.toList "" false (Item.flaggedOf text)).map
    fun parts => File.ofParts path parts.value

/-- In the file of the source every argument of an attribute is one string literal, and every
initializer of an enum value one number literal. -/
def Host.OnlyLiterals (path : Path) (text : String) : Prop :=
  ∀ file, File.parseFlagged path text = .ok file → file.Only IsFlagged IsNumber

namespace Host

theorem not_isFlagged_writtenText (src : List Char) (ts rest : List Item) :
    ¬ IsFlagged (writtenText src ts rest) := by
  unfold writtenText
  dsimp only
  split
  · rename_i first last _ _
    rw [IsFlagged, String.toList_ofList, Text.trim]
    intro flagged
    obtain ⟨q, chars⟩ := List.head?_eq_some_iff.mp flagged
    -- What is left after both ends are trimmed begins as what is left after the front is trimmed.
    have front : Text.trimEnd (Text.trimStart (Text.slice src first.start last.stop)) <+:
        Text.trimStart (Text.slice src first.start last.stop) := by
      rw [Text.trimEnd, Text.dropEndWhile, ← List.reverse_suffix, List.reverse_reverse]
      exact List.dropWhile_suffix _
    rw [chars] at front
    obtain ⟨z, whole⟩ := front
    have solid := List.head?_dropWhile_not Text.isBlank (Text.slice src first.start last.stop)
    rw [Text.trimStart] at whole
    rw [← whole] at solid
    simp at solid
    exact absurd solid (by decide)
  · decide

theorem writtenText_map (src : List Char) (f : String → String) {ts rest : List Item} :
    writtenText src (ts.map (Item.retext f)) (rest.map (Item.retext f)) =
      writtenText src ts rest := by
  simp only [writtenText, List.length_map, ← List.map_take, List.head?_map, List.getLast?_map]
  cases (ts.take (ts.length - rest.length)).head? <;>
    cases (ts.take (ts.length - rest.length)).getLast? <;> rfl

end Host

namespace Pairing
variable {p : Pairing} {ts us : List Item}

/-- In two texts of as many tokens the readers have passed as many of them. -/
theorem At.aligned (h : p.At ts us) (same : p.second.length = p.first.length) :
    ∃ n, ts = p.first.drop n ∧ us = p.second.drop n := by
  have lengths : us.length = ts.length := by
    simpa using congrArg List.length h.tokens
  refine ⟨p.first.length - ts.length, List.suffix_iff_eq_drop.mp h.left, ?_⟩
  rw [← same, ← lengths]
  exact List.suffix_iff_eq_drop.mp h.right

theorem At.right_unique (h : p.At ts us) {us' : List Item} (h' : p.At ts us') : us' = us := by
  have lengths := congrArg List.length (h'.tokens.trans h.tokens.symm)
  simp only [List.length_map] at lengths
  rw [List.suffix_iff_eq_drop.mp h'.right, List.suffix_iff_eq_drop.mp h.right, lengths]

end Pairing

/-- The flagged items of a text beside the real ones. -/
def Pairing.unflagging (text : String) : Pairing :=
  ⟨Item.flaggedOf text, Item.ofText text, unflag⟩

/-- The blanks are taken off again. -/
def Spelling.unflagging (text : String) : Spelling where
  source := text.toList
  source' := text.toList
  type := Eq
  value := fun flagged value => unflag flagged = value
  init := Eq

namespace Pairing
variable {text text' : String} {ts us : List Item}

theorem retext_flaggedOf (text : String) :
    (Item.flaggedOf text).map (Item.retext unflag) = Item.ofText text := by
  have same : Item.retext unflag ∘ Item.retext flag = id := by
    funext i
    obtain ⟨token, docs, start, stop⟩ := i
    cases token with
    | text value => simp only [Function.comp_apply, Item.retext, Token.retext, unflag_flag, id]
    | _ => rfl
  rw [Item.flaggedOf, List.map_map, same, List.map_id]

theorem eq_map_of_at (h : (unflagging text).At ts us) : us = ts.map (Item.retext unflag) := by
  have whole : (unflagging text).second = (unflagging text).first.map (Item.retext unflag) :=
    (retext_flaggedOf text).symm
  obtain ⟨n, rfl, rfl⟩ := h.aligned (by rw [whole, List.length_map])
  rw [whole, List.map_drop]

theorem carries_unflagging (text : String) :
    (unflagging text).Carries (Spelling.unflagging text) where
  docs := by
    intro ts us h
    rw [eq_map_of_at h]
    cases ts <;> rfl
  noType := rfl
  type := by
    intro ts us s s' h _ after
    show writtenText text.toList ts s.rest = writtenText text.toList us s'.rest
    rw [eq_map_of_at after, eq_map_of_at h, writtenText_map]
  literal := fun _ => rfl
  value := by
    intro ts us h
    have after := at_expression true .outside h
    show unflag (writtenText text.toList ts (Skip.expression true .outside ts)) =
      writtenText text.toList us (Skip.expression true .outside us)
    rw [eq_map_of_at after, eq_map_of_at h, writtenText_map, unflag,
      if_neg (not_isFlagged_writtenText _ _ _)]
  init := by
    intro ts us h
    have after := at_expression false .outside h
    show writtenText text.toList ts (Skip.expression false .outside ts) =
      writtenText text.toList us (Skip.expression false .outside us)
    rw [eq_map_of_at after, eq_map_of_at h, writtenText_map]

end Pairing

namespace TypeSyntax

/-- A text is read as a type from its tokens alone. -/
theorem reading_eq {written written' : String}
    (same : (Item.ofText written').map (·.token) = (Item.ofText written).map (·.token)) :
    reading written = reading written' := by
  let p : Pairing := ⟨Item.ofText written, Item.ofText written', id⟩
  have start : p.At (Item.ofText written) (Item.ofText written') := by
    refine ⟨List.suffix_rfl, List.suffix_rfl, ?_⟩
    rw [same]
    exact List.map_congr_left fun i _ => i.token.retext_id.symm
  have agree := Pairing.agree_read start
  rw [reading, reading, parse, parse]
  generalize TypeSyntax.read (Item.ofText written) = x at agree ⊢
  generalize TypeSyntax.read (Item.ofText written') = y at agree ⊢
  cases agree with
  | error cause => rfl
  | @ok s s' type =>
    obtain ⟨ty, rest, short⟩ := s
    obtain ⟨ty', rest', short'⟩ := s'
    obtain rfl : ty = ty' := type.1
    have after : p.At rest rest' := type.2
    cases rest with
    | nil =>
      obtain rfl := after.nil_right
      rfl
    | cons t r =>
      obtain ⟨u, q, rfl, -⟩ := after.cons_right
      rfl

end TypeSyntax

/-- The flagged items of two texts. -/
def Pairing.flagged (text text' : String) : Pairing :=
  ⟨Item.flaggedOf text, Item.flaggedOf text', id⟩

/-- Types are read alike, literals are the same, and nothing is said of other texts. -/
def Spelling.flagged (text text' : String) : Spelling where
  source := text.toList
  source' := text'.toList
  type := fun written written' => TypeSyntax.reading written = TypeSyntax.reading written'
  value := fun value value' => IsFlagged value → value = value'
  init := fun init init' => IsNumber init → init = init'

namespace Host
variable {text : String} {ts rest : List Item}

theorem isPlain_of_retext {f : String → String} {t : Token} (plain : (t.retext f).IsPlain) :
    t.IsPlain ∧ t.retext f = t := by
  cases t with
  | text value => exact plain.elim
  | _ => exact ⟨plain, rfl⟩

/-- What stands at the end of the flagged items are the flagged items at the end. -/
theorem exists_of_flagged {front : List Item} (there : front ++ rest <:+ Item.flaggedOf text) :
    ∃ front' rest', front' ++ rest' <:+ Item.ofText text ∧
      front = front'.map (Item.retext flag) ∧ rest = rest'.map (Item.retext flag) := by
  obtain ⟨before, whole⟩ := there
  obtain ⟨a, b, items, -, same⟩ := List.map_eq_append_iff.mp whole.symm
  obtain ⟨front', rest', rfl, front, rest⟩ := List.map_eq_append_iff.mp same
  exact ⟨front', rest', ⟨a, items.symm⟩, front.symm, rest.symm⟩

/-- The text that is kept of a type, read on its own, gives the tokens that were taken. -/
theorem tokens_of_readType {s : Step TypeSyntax ts} (there : ts <:+ Item.flaggedOf text)
    (h : TypeSyntax.read ts = .ok s) :
    ∃ taken, ts = taken ++ s.rest ∧
      (Item.ofText (writtenText text.toList ts s.rest)).map (·.token) = taken.map (·.token) := by
  obtain ⟨taken, whole, plain⟩ := TypeSyntax.plain_of_read h
  obtain ⟨ty, rest, shorter⟩ := s
  obtain rfl : ts = taken ++ rest := whole
  refine ⟨taken, rfl, ?_⟩
  obtain ⟨taken', rest', there', rfl, rfl⟩ := exists_of_flagged there
  have plain' : ∀ i ∈ taken', i.token.IsPlain ∧ (i.token.retext flag) = i.token :=
    fun i hi => isPlain_of_retext (plain _ (List.mem_map_of_mem hi))
  dsimp only
  rw [← List.map_append, writtenText_map, List.map_map]
  cases taken' with
  | nil =>
    have none := shorter.1
    simp at none
  | cons t taken' =>
    rw [tokens_writtenText there' fun i hi => (plain' i hi).1]
    exact List.map_congr_left fun i hi => (plain' i hi).2.symm

theorem not_isNumber_empty : ¬ IsNumber "" := by
  intro number
  obtain ⟨c, r, chars, -⟩ := number.chars
  simp at chars

/-- An initializer that reads as a number is one number literal. -/
theorem number_of_init (there : ts <:+ Item.flaggedOf text) (after : rest <:+ ts)
    (number : IsNumber (writtenText text.toList ts rest)) :
    ∃ t, ts = t :: rest ∧ t.token = .number (writtenText text.toList ts rest) := by
  obtain ⟨taken, rfl⟩ := after
  obtain ⟨taken', rest', there', rfl, rfl⟩ := exists_of_flagged there
  rw [← List.map_append, writtenText_map] at number ⊢
  cases taken' with
  | nil =>
    have none : writtenText text.toList ([] ++ rest') rest' = "" := by
      simp [writtenText]
    rw [none] at number
    exact absurd number not_isNumber_empty
  | cons t more =>
    obtain ⟨rfl, token⟩ := number_of_writtenText there' number
    exact ⟨t.retext flag, rfl, by rw [Item.retext, token]; rfl⟩

/-- A number literal is kept as it is spelled. -/
theorem written_number {t : Item} {n : String} (there : t :: rest <:+ Item.flaggedOf text)
    (token : t.token = .number n) : writtenText text.toList (t :: rest) rest = n := by
  obtain ⟨front, rest', there', same, rfl⟩ := @exists_of_flagged text rest [t] there
  obtain ⟨t', rfl, rfl⟩ := List.map_eq_singleton_iff.mp same.symm
  have token' : t'.token = .number n := (Token.retext_eq_iff fun _ => Token.noConfusion).mp token
  rw [← List.map_cons, writtenText_map]
  exact writtenText_number there' token'

end Host

namespace Pairing
variable {text text' : String} {ts us : List Item}

theorem tokens_of_at (h : (flagged text text').At ts us) :
    us.map (·.token) = ts.map (·.token) := by
  rw [h.tokens]
  exact List.map_congr_left fun i _ => i.token.retext_id

theorem carries_flagged
    (docs : (Item.ofText text').map (·.docs) = (Item.ofText text).map (·.docs)) :
    (flagged text text').Carries (Spelling.flagged text text') where
  docs := by
    intro ts us h
    have kept : ∀ items : List Item, (items.map (Item.retext flag)).map (·.docs) =
        items.map (·.docs) := by
      intro items
      rw [List.map_map]
      rfl
    have same : (flagged text text').second.map (·.docs) =
        (flagged text text').first.map (·.docs) :=
      ((kept _).trans docs).trans (kept _).symm
    obtain ⟨n, rfl, rfl⟩ := h.aligned (by simpa using congrArg List.length same)
    have here := congrArg (fun docs => (docs.drop n).head?) same
    simp only [← List.map_drop, List.head?_map] at here
    rw [Item.docsAt, Item.docsAt, here]
  noType := rfl
  type := by
    intro ts us s s' h found after
    have agree := agree_read h
    rw [found] at agree
    cases found' : TypeSyntax.read us with
    | error e =>
      rw [found'] at agree
      cases agree
    | ok s'' =>
      rw [found'] at agree
      cases agree with
      | ok same =>
        obtain ⟨taken, whole, tokens⟩ := tokens_of_readType h.left found
        obtain ⟨taken', whole', tokens'⟩ := tokens_of_readType h.right found'
        rw [same.2.right_unique after]
        refine TypeSyntax.reading_eq ?_
        have all := tokens_of_at h
        rw [whole, whole', List.map_append, List.map_append, tokens_of_at same.2] at all
        exact (tokens'.trans (List.append_cancel_right all)).trans tokens.symm
  literal := fun _ _ => rfl
  value := by
    intro ts us _ flagged
    exact absurd flagged (not_isFlagged_writtenText _ _ _)
  init := by
    intro ts us h number
    have after := at_expression false .outside h
    obtain ⟨t, whole, token⟩ :=
      number_of_init h.left (Skip.expression_short false .outside ts).2 number
    obtain ⟨u, q, split, token', rest⟩ := (whole ▸ h).cons_right
    have there : u :: q <:+ Item.flaggedOf text' := split ▸ h.right
    have spelled := written_number there (by rw [token', token]; rfl)
    rw [← split, after.right_unique rest] at spelled
    exact spelled.symm

end Pairing
end Ambient
